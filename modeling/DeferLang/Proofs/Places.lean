import DeferLang.Proofs.ScannedBytes

/-!
# Places in a text

A byte offset is a cut of a text if it falls between two of its characters.  The
tokens and faults of a text begin and end at cuts, and so does every span that is
joined from such spans (`Span.Shows`).  At a cut, line and column of a position say
how many lines end before it and how many bytes its line has before it
(`Source.position_eq`).
-/

namespace DeferLang

/-- An offset at which a text can be cut in two. -/
def IsCut (text : List Char) (offset : Nat) : Prop :=
  ∃ before after, text = before ++ after ∧ offset = byteLength before

theorem IsCut.le {text : List Char} {offset : Nat} (h : IsCut text offset) :
    offset ≤ byteLength text := by
  obtain ⟨before, after, rfl, rfl⟩ := h
  rw [byteLength_append]
  exact Nat.le_add_right _ _

/-- What stands between two cuts. -/
theorem IsCut.between {text : List Char} {start stop : Nat} (hstart : IsCut text start)
    (hstop : IsCut text stop) (hle : start ≤ stop) :
    ∃ before word after, text = before ++ word ++ after ∧ start = byteLength before ∧
      stop = byteLength before + byteLength word := by
  obtain ⟨before, rest, rfl, rfl⟩ := hstart
  obtain ⟨front, after, htext, rfl⟩ := hstop
  rcases List.append_eq_append_iff.1 htext with ⟨word, rfl, rfl⟩ | ⟨word, rfl, rfl⟩
  · exact ⟨before, word, after, by rw [List.append_assoc], rfl, byteLength_append _ _⟩
  · -- the second cut is not before the first, so nothing stands between them
    rw [byteLength_append] at hle
    have hnil : word = [] := by
      by_contra hne
      have hpos := byteLength_pos hne
      omega
    subst hnil
    exact ⟨front, [], rest, by simp, by simp, by simp [byteLength]⟩

namespace Span

variable {text word : List Char} {a b span : Span}

/-- A span marks a word if the word stands in the text at just that place. -/
def Marks (text : List Char) (span : Span) (word : List Char) : Prop :=
  ∃ before after, text = before ++ word ++ after ∧ span = ⟨byteLength before, byteLength word⟩

/-- A span shows some of a text if it is not empty and both of its ends are cuts. -/
structure Shows (text : List Char) (span : Span) : Prop where
  start : IsCut text span.offset
  stop : IsCut text span.stop
  nonempty : span.offset < span.stop

/-- A span points into a text if it shows some of it, or stands empty at its end. -/
def Points (text : List Char) (span : Span) : Prop :=
  span.Shows text ∨ span = ⟨byteLength text, 0⟩

theorem Marks.slice (h : span.Marks text word) :
    sliceBytes text span.offset span.stop = some word := by
  obtain ⟨before, after, rfl, rfl⟩ := h
  exact sliceBytes_append before word after

/-- What follows a text does not matter to the words in it. -/
theorem Marks.append (h : span.Marks text word) (more : List Char) :
    span.Marks (text ++ more) word := by
  obtain ⟨before, after, rfl, rfl⟩ := h
  exact ⟨before, after ++ more, by simp, rfl⟩

theorem Marks.shows (h : span.Marks text word) (hne : word ≠ []) : span.Shows text := by
  obtain ⟨before, after, rfl, rfl⟩ := h
  have hpos := byteLength_pos hne
  refine ⟨⟨before, word ++ after, by rw [List.append_assoc], rfl⟩,
    ⟨before ++ word, after, rfl, (byteLength_append _ _).symm⟩, ?_⟩
  change byteLength before < byteLength before + byteLength word
  omega

theorem Shows.exists_marks (h : span.Shows text) : ∃ word, word ≠ [] ∧ span.Marks text word := by
  obtain ⟨before, word, after, htext, hstart, hstop⟩ :=
    h.start.between h.stop (Nat.le_of_lt h.nonempty)
  have hlength : span.length = byteLength word := by
    have heq : span.stop = span.offset + span.length := rfl
    omega
  refine ⟨word, ?_, before, after, htext, ?_⟩
  · rintro rfl
    have hlt := h.nonempty
    simp only [byteLength] at hstop
    omega
  · rw [← hstart, ← hlength]

theorem Shows.stop_le (h : span.Shows text) : span.stop ≤ byteLength text :=
  h.stop.le

/-- What a span points at; only the end of a text is nothing. -/
theorem Points.exists_word (h : span.Points text) :
    ∃ before word after, text = before ++ word ++ after ∧
      span = ⟨byteLength before, byteLength word⟩ ∧ (word = [] → after = []) := by
  rcases h with hshows | rfl
  · obtain ⟨word, hne, before, after, htext, hspan⟩ := hshows.exists_marks
    exact ⟨before, word, after, htext, hspan, fun hnil => absurd hnil hne⟩
  · exact ⟨text, [], [], by simp, rfl, fun _ => rfl⟩

/-- Spans between cuts are joined to a span between cuts. -/
theorem Shows.join (ha : a.Shows text) (hb : b.Shows text) : (Span.join a b).Shows text := by
  refine ⟨?_, ?_, ?_⟩
  · rw [offset_join]
    rcases Nat.le_total a.offset b.offset with hle | hle
    · rw [Nat.min_eq_left hle]
      exact ha.start
    · rw [Nat.min_eq_right hle]
      exact hb.start
  · rw [stop_join]
    rcases Nat.le_total a.stop b.stop with hle | hle
    · rw [Nat.max_eq_right hle]
      exact hb.stop
    · rw [Nat.max_eq_left hle]
      exact ha.stop
  · have hlt := ha.nonempty
    rw [offset_join, stop_join]
    omega

end Span

section Tokens

variable {text : List Char} {ps : List Piece}

/-- A name has the spelling of its token. -/
theorem Piece.text_of_ident {c : Char} {cs : List Char} {name : String}
    (h : (first c cs).tokenKind? = some (.ident name)) : (first c cs).text = name.toList := by
  unfold first at h ⊢
  split at h
  · contradiction
  rename_i hblank
  rw [if_neg hblank]
  split at h
  · rename_i hword
    rw [if_pos hword]
    simp only [tokenKind?, Option.some.injEq, wordKind] at h
    split at h
    · contradiction
    · rw [← TokenKind.ident.inj h, String.toList_ofList]
  split at h
  · unfold number at h
    dsimp only at h
    split at h <;> simp [tokenKind?] at h
  split at h
  · unfold string at h
    split at h <;> simp [tokenKind?] at h
  · unfold symbol at h
    split at h
    · simp [tokenKind?] at h
    split at h
    · simp [tokenKind?] at h
    split at h <;> simp [tokenKind?] at h

/-- Tokens that stand on a text in order, from an offset up to the end of the stream.  What
follows the end of the stream does not matter. -/
def Lined (text : List Char) : Nat → List Token → Prop
  | _, [] => False
  | start, t :: ts =>
    start ≤ t.span.offset ∧
      (t.kind = .eof ∧ t.span = ⟨byteLength text, 0⟩ ∨
        t.kind ≠ .eof ∧ t.span.Shows text ∧
          (∀ name, t.kind = .ident name → t.span.Marks text name.toList) ∧
          Lined text t.span.stop ts)

theorem Lined.mono {start start' : Nat} {ts : List Token} (h : Lined text start ts)
    (hle : start' ≤ start) : Lined text start' ts := by
  cases ts with
  | nil => exact h
  | cons t ts => exact ⟨Nat.le_trans hle h.1, h.2⟩

/-- The tokens of a text stand on it, whatever stands before them. -/
theorem Scans.lined (h : Scans text ps) (before : List Char) :
    Lined (before ++ text) (byteLength before) (tokensFrom (byteLength before) ps) := by
  induction h generalizing before with
  | nil => exact ⟨Nat.le_refl _, .inl ⟨rfl, by rw [List.append_nil]⟩⟩
  | @cons c cs rest ps hsplit _ ih =>
    have hne := (Piece.exists_rest_first c cs).1
    have hrest := ih (before ++ (Piece.first c cs).text)
    rw [byteLength_append, List.append_assoc, ← hsplit] at hrest
    have hmarks : ((Piece.first c cs).span (byteLength before)).Marks (before ++ c :: cs)
        (Piece.first c cs).text :=
      ⟨before, rest, by rw [hsplit, List.append_assoc], rfl⟩
    rw [tokensFrom, Piece.token?]
    cases hkind : (Piece.first c cs).tokenKind? with
    | none => exact hrest.mono (Nat.le_add_right _ _)
    | some kind =>
      refine ⟨Nat.le_refl _, .inr ⟨?_, hmarks.shows hne, fun name hname => ?_, hrest⟩⟩
      · -- the end of the stream has no text
        rintro rfl
        have hcls := Piece.cls_ne_eof (Piece.explained_first c cs) hne
        unfold Piece.tokenKind? at hkind
        split at hkind
        · exact hcls (by simp_all)
        · simp at hkind
        · contradiction
      · obtain rfl : kind = .ident name := hname
        rw [← Piece.text_of_ident hkind]
        exact hmarks

theorem lined_tokens (text : List Char) : Lined text 0 (tokens text) :=
  tokens_eq text ▸ (scans_pieces text).lined []

/-- The faults of a text stand on it, whatever stands before them. -/
theorem Scans.shows_errors (h : Scans text ps) (before : List Char) :
    ∀ e ∈ scanErrorsFrom (byteLength before) ps, e.span.Shows (before ++ text) := by
  induction h generalizing before with
  | nil => simp [scanErrorsFrom]
  | @cons c cs rest ps hsplit _ ih =>
    intro e he
    rcases List.mem_append.1 he with he | he
    · have hmarks : ((Piece.first c cs).span (byteLength before)).Marks (before ++ c :: cs)
          (Piece.first c cs).text :=
        ⟨before, rest, by rw [hsplit, List.append_assoc], rfl⟩
      obtain ⟨fault, -, rfl⟩ := Option.map_eq_some_iff.1 (Option.mem_toList.1 he)
      exact hmarks.shows (Piece.exists_rest_first c cs).1
    · have hshows := ih (before ++ (Piece.first c cs).text) e (by rwa [byteLength_append])
      rwa [List.append_assoc, ← hsplit] at hshows

theorem shows_scanErrors {e : ScanError} (h : e ∈ scanErrors text) : e.span.Shows text :=
  (scans_pieces text).shows_errors [] e (scanErrors_eq text ▸ h)

end Tokens

section Positions

/-- The line of a place counts the newlines before it, and the column the bytes before it on
its line. -/
theorem Source.position_eq (s : Source) {before after : List Char} (h : s.text = before ++ after) :
    s.position (byteLength before) =
      { file := s.id
        line := before.count '\n' + 1
        column := byteLength (lastLine before) + 1
        offset := byteLength before } := by
  have hle : byteLength before ≤ s.size := by
    rw [s.size_eq, h, byteLength_append]
    exact Nat.le_add_right _ _
  have hpassed : s.heads.takeWhile (· ≤ byteLength before) = lineHeads before := by
    rw [s.heads_eq, h, takeWhile_lineHeads_append after (Nat.le_refl _), takeWhile_lineHeads_self]
  have hlast := getLastD_lineHeads before
  simp only [Source.position_eq_passed, Nat.min_eq_left hle, hpassed, length_lineHeads,
    Position.mk.injEq, true_and, and_true]
  omega

/-- An anchor at a word of the text has the word as its lexeme. -/
theorem Anchor.ofSpan_of_marks {s : Source} {span : Span} {word : List Char}
    (h : span.Marks s.text word) :
    Anchor.ofSpan s span = ⟨span, s.position span.offset, String.ofList word⟩ := by
  have hle : span.stop ≤ s.size := by
    obtain ⟨before, after, htext, rfl⟩ := h
    rw [s.size_eq, htext, byteLength_append, byteLength_append]
    exact Nat.le_add_right _ _
  rw [Anchor.ofSpan, Source.slice, Nat.min_eq_left hle, h.slice]
  rfl

end Positions

end DeferLang
