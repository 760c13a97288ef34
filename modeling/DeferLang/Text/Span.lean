/-!
# Spans of source text

A span names a range of bytes of a source text by its first offset and its
length.  Spans carry no file and no text of their own; `Source` gives them both.
-/

namespace DeferLang

/-- A range of bytes: where it starts and how many bytes it covers. -/
structure Span where
  offset : Nat
  length : Nat
deriving DecidableEq, Inhabited

namespace Span

/-- The first offset after the span. -/
def stop (s : Span) : Nat :=
  s.offset + s.length

/-- The span from `start` up to, not including, `stop`. -/
def between (start stop : Nat) : Span :=
  ⟨start, stop - start⟩

/-- The smallest span that covers both spans. -/
def join (a b : Span) : Span :=
  between (min a.offset b.offset) (max a.stop b.stop)

@[simp] theorem offset_between (start stop : Nat) : (between start stop).offset = start :=
  rfl

theorem stop_between {start stop : Nat} (h : start ≤ stop) : (between start stop).stop = stop := by
  simp only [between, Span.stop]
  omega

@[simp] theorem offset_join (a b : Span) : (join a b).offset = min a.offset b.offset :=
  rfl

@[simp] theorem stop_join (a b : Span) : (join a b).stop = max a.stop b.stop := by
  apply stop_between
  simp only [stop]
  omega

end Span

end DeferLang
