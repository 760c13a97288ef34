import DeferLang.Program.Parse

/-!
# Reasoning about parsers

`Parser.Ends m c Q E` says how the parser `m` ends from the cursor `c`: with a value
and a cursor that satisfy `Q`, or with an error and a cursor that satisfy `E`.  There
is one rule for each way of building a parser.  What parsers keep, spend or read is
stated with it elsewhere.
-/

namespace DeferLang

section Cursors

variable {c : Cursor} {kind : TokenKind}

theorem Cursor.exists_of_kind (h : c.kind? = some kind) :
    ∃ t ts, c.rest = t :: ts ∧ t.kind = kind := by
  unfold Cursor.kind? at h
  cases hrest : c.rest with
  | nil => simp [hrest] at h
  | cons t ts => exact ⟨t, ts, rfl, by simpa [hrest] using h⟩

theorem Cursor.advance_eq {t : Token} {ts : List Token} (h : c.rest = t :: ts)
    (hne : t.kind ≠ .eof) : c.advance = { c with rest := ts, last := some t.span } := by
  unfold Cursor.advance
  rw [h]
  exact if_neg hne

end Cursors

namespace Parser

variable {α β : Type} {c : Cursor} {kind : TokenKind}

/-- How a parser ends from a cursor. -/
def Ends (m : Parser α) (c : Cursor) (Q : α → Cursor → Prop) (E : ParseError → Cursor → Prop) :
    Prop :=
  match m c with
  | .ok a c' => Q a c'
  | .error e c' => E e c'

section Rules

variable {m : Parser α} {k : α → Parser β} {Q Q' : α → Cursor → Prop} {R : β → Cursor → Prop}
  {E E' : ParseError → Cursor → Prop}

theorem bind_of_ok {a : α} {c' : Cursor} (h : m c = .ok a c') : (m >>= k) c = k a c' := by
  change EStateM.bind m k c = _
  rw [EStateM.bind, h]

theorem bind_of_error {e : ParseError} {c' : Cursor} (h : m c = .error e c') :
    (m >>= k) c = .error e c' := by
  change EStateM.bind m k c = _
  rw [EStateM.bind, h]

theorem Ends.mono (h : Ends m c Q E) (hQ : ∀ a c', Q a c' → Q' a c')
    (hE : ∀ e c', E e c' → E' e c') : Ends m c Q' E' := by
  unfold Ends at h ⊢
  split at h
  · exact hQ _ _ h
  · exact hE _ _ h

theorem Ends.bind (h : Ends m c (fun a c' => Ends (k a) c' R E) E) : Ends (m >>= k) c R E := by
  change match EStateM.bind m k c with
    | .ok b c' => R b c'
    | .error e c' => E e c'
  unfold EStateM.bind
  unfold Ends at h
  cases hm : m c with
  | ok a c' | error e c' =>
    rw [hm] at h
    exact h

theorem Ends.map {f : α → β} (h : Ends m c (fun a c' => R (f a) c') E) : Ends (f <$> m) c R E := by
  rw [map_eq_pure_bind]
  exact .bind h

theorem Ends.and (h : Ends m c Q E) (h' : Ends m c Q' E') :
    Ends m c (fun a c' => Q a c' ∧ Q' a c') (fun e c' => E e c' ∧ E' e c') := by
  unfold Ends at h h' ⊢
  cases hm : m c with
  | ok a c' | error e c' =>
    rw [hm] at h h'
    exact ⟨h, h'⟩

theorem Ends.eq_ok {a : α} {c' : Cursor}
    (h : Ends m c (fun b d => b = a ∧ d = c') fun _ _ => False) : m c = .ok a c' := by
  unfold Ends at h
  cases hm : m c with
  | ok b d =>
    rw [hm] at h
    rw [h.1, h.2]
  | error e d =>
    rw [hm] at h
    exact h.elim

/-- Two ways to go on can be told apart only where the first parser leads. -/
theorem Ends.bind_eq {k' : α → Parser β}
    (h : Ends m c (fun a c' => k a c' = k' a c') fun _ _ => True) : (m >>= k) c = (m >>= k') c := by
  change EStateM.bind m k c = EStateM.bind m k' c
  unfold EStateM.bind
  unfold Ends at h
  cases hm : m c with
  | ok a c' =>
    rw [hm] at h
    exact h
  | error e c' => rfl

theorem Ends.peek {k : Option TokenKind → Parser β} (h : Ends (k c.kind?) c R E) :
    Ends (kind? >>= k) c R E :=
  h

/-- At a token that is expected, it is read. -/
theorem Ends.token {k : Span → Parser β} (hkind : c.kind? = some kind)
    (hk : Ends (k c.span) c.advance R E) : Ends (expect kind >>= k) c R E := by
  have hexpect : expect kind c = .ok c.span c.advance := by
    change (if decide (c.kind? = some kind) = true then _ else _ : Parser Span) c = _
    rw [if_pos (decide_eq_true hkind)]
    rfl
  refine .bind ?_
  unfold Ends
  rw [hexpect]
  exact hk

/-- What is opened is closed behind the parser. -/
theorem Ends.opened (h : Ends m { c with depth := c.depth + 1 }
      (fun a c' => Q a { c' with depth := c'.depth - 1 })
      fun e c' => E e { c' with depth := c'.depth - 1 }) : Ends (opened m) c Q E := by
  unfold Ends Parser.opened
  unfold Ends at h
  cases hm : m { c with depth := c.depth + 1 } with
  | ok a c' | error e c' =>
    rw [hm] at h
    exact h

/-- What cannot be parsed is reported and skipped; only what ends parsing is passed on. -/
theorem Ends.recovering_or_fatal {R : Option α → Cursor → Prop}
    (h : Ends m c (fun a c' => R (some a) c') (fun e c' =>
      if e.fault.isFatal = true then E e c' else R none (c'.report e).skipStatement)) :
    Ends (recovering m) c R E := by
  unfold Ends Parser.recovering
  unfold Ends at h
  cases hm : m c with
  | ok a c' =>
    rw [hm] at h
    exact h
  | error e c' =>
    rw [hm] at h
    dsimp only at h ⊢
    by_cases hfatal : e.fault.isFatal = true
    · rw [if_pos hfatal] at h ⊢
      exact h
    · rw [if_neg hfatal] at h ⊢
      exact h

end Rules

end Parser

end DeferLang
