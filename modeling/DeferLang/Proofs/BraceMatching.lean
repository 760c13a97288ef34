import DeferLang.Proofs.BalancedParsers
import DeferLang.Token.Scan

/-!
# Blocks end at the brace that matches

Where a block ends can be found by counting braces alone (`behindClosing`).  The
parser ends a block there as well, whatever is wrong with the statements inside.
-/

namespace DeferLang

namespace Parser

/-- A block is read up to its closing brace, whatever its statements are. -/
theorem ends_blockOf {L : Language Stmt} {stmt : Parser Stmt} {c : Cursor}
    (hstmt : Balanced True (statements L) stmt) (hopen : c.kind? = some (.mark .lbrace)) :
    Ends (blockOf stmt) c (fun _ c' => c'.rest = behindClosing 0 c.rest)
      (fun e _ => e.fault = .nestingTooDeep) :=
  (hstmt.pairsBraces trivial Nat.one_pos).ends_blockOf hopen

end Parser

/-- From an opening brace, parsing a block ends where nesting is too deep, or it gives a block and
leaves what stands behind the brace that matches, or the end of input if there is none.  What is
wrong with the statements in between does not matter. -/
theorem block_ends_at_matching_brace (levels : Nat) (c : Cursor)
    (h : c.kind? = some (.mark .lbrace)) :
    (∃ e c', Parser.block levels c = .error e c' ∧ e.fault = .nestingTooDeep) ∨
      ∃ b c', Parser.block levels c = .ok b c' ∧ c'.rest = behindClosing 0 c.rest := by
  have hends : Parser.Ends (Parser.block levels) c (fun _ c' => c'.rest = behindClosing 0 c.rest)
      (fun e _ => e.fault = .nestingTooDeep) := by
    cases levels with
    | zero => exact rfl
    | succ levels =>
        exact Parser.ends_blockOf
          (Parser.balanced_statement (Parser.balanced_expr levels) (Parser.balanced_block levels)) h
  unfold Parser.Ends at hends
  cases hblock : Parser.block levels c with
  | ok b c' =>
      rw [hblock] at hends
      exact .inr ⟨b, c', rfl, hends⟩
  | error e c' =>
      rw [hblock] at hends
      exact .inl ⟨e, c', rfl, hends⟩

/-- The tokens of a block in which a declaration, an `if` and a statement are broken, and of
what stands behind it. -/
def brokenBlock : List Token :=
  tokens ("\x7b int = \x7b x; \x7d if (y) \x7b z \x7d else w; \x7b \x7d ) \x7d v").toList

theorem block_ends_at_matching_brace_brokenBlock :
    Cursor.kind? { rest := brokenBlock } = some (.mark .lbrace) ∧
      ∃ b c', Parser.block 3 { rest := brokenBlock } = .ok b c' ∧
        c'.rest = behindClosing 0 brokenBlock ∧ c'.rest.map Token.kind = [.ident "v", .eof] := by
  have hopen : Cursor.kind? { rest := brokenBlock } = some (.mark .lbrace) := by decide +kernel
  have hsome : ((Parser.block 3).run' { rest := brokenBlock }).isSome = true := by decide +kernel
  have hbehind : (behindClosing 0 brokenBlock).map Token.kind = [.ident "v", .eof] := by
    decide +kernel
  refine ⟨hopen, ?_⟩
  rcases block_ends_at_matching_brace 3 { rest := brokenBlock } hopen with
    ⟨e, c', herror, -⟩ | ⟨b, c', hblock, hrest⟩
  · delta EStateM.run' EStateM.run at hsome
    rw [herror] at hsome
    contradiction
  · exact ⟨b, c', hblock, hrest, (congrArg _ hrest).trans hbehind⟩

end DeferLang
