import DeferLang.Proofs.ProgramRounds

/-!
# What the parser reads is derived by the grammar

A parser that reports nothing has read a token sequence of its language, and the
tree it gives is the tree of a derivation.  An error that was reported stays reported,
so a program that reports none met none on the way, also not where it recovers.
-/

namespace DeferLang

open Grammar

namespace Parser

theorem derives_programFrom (rounds : Nat) (c : Cursor) (hrounds : c.rest.length ≤ rounds)
    (herrors : (programFrom rounds c).2.errors = c.errors) :
    (programFrom rounds c).2.atEnd = true ∧
      ∃ ks, c.kinds = ks ++ (programFrom rounds c).2.kinds ∧ .eof ∉ ks ∧
        Many ItemOf ks (programFrom rounds c).1 := by
  obtain ⟨d, ks, hat, -, hstops⟩ := programFrom_at rounds c
  replace hstops := hstops hrounds
  generalize (programFrom rounds c).2 = final at hstops herrors ⊢
  cases hstops with
  | atEnd hend =>
    obtain ⟨hitems, hkinds, -⟩ := hat.clean herrors
    exact ⟨hend, ks, hkinds, hat.eof_notMem herrors, hitems⟩
  | tooDeep hfail _ _ =>
    have hmore := (hat.leads.errors.trans hfail.leads.errors).length_le
    have hlen := congrArg List.length herrors
    rw [Cursor.report, List.length_append, List.length_singleton] at hlen
    omega

end Parser

/-- The kinds of the tokens that a program is read from: those before the end of the stream. -/
def programKinds (tokens : List Token) : List TokenKind :=
  (tokens.map Token.kind).takeWhile (· ≠ .eof)

theorem Cursor.kinds_of_atEnd {c : Cursor} (h : c.atEnd = true) :
    c.kinds.takeWhile (· ≠ .eof) = [] := by
  rw [atEnd, ← head?_kinds] at h
  cases hkinds : c.kinds with
  | nil => rfl
  | cons kind ks =>
    rw [hkinds] at h
    have heof : kind = .eof := by simpa using h
    simp [heof]

/-- A program that is parsed without an error is derived from its tokens. -/
theorem derives_parseProgram (tokens : List Token) (h : (parseProgram tokens).2 = []) :
    Grammar.ProgramOf (programKinds tokens) (parseProgram tokens).1 := by
  obtain ⟨hend, ks, hkinds, heof, hitems⟩ :=
    Parser.derives_programFrom tokens.length { rest := tokens } (Nat.le_refl _) h
  refine ⟨_, ?_, rfl, rfl⟩
  have hall : programKinds tokens = ks := by
    change (Cursor.kinds { rest := tokens }).takeWhile (· ≠ .eof) = ks
    rw [hkinds, List.takeWhile_append_of_pos, Cursor.kinds_of_atEnd hend, List.append_nil]
    intro kind hkind
    have hne : kind ≠ .eof := fun hkindEof => heof (hkindEof ▸ hkind)
    exact decide_eq_true hne
  rw [hall]
  exact hitems

end DeferLang
