import DeferLang.Proofs.AlikeParsers

/-!
# The parser sees the kinds of the tokens

A parser that reads erased tokens does what it does with the tokens themselves, and
gives the same tree without its spans and the same errors without their places and
lexemes (`parseProgram_erase`).
-/

namespace DeferLang

namespace Parser

variable {α : Type} {f : α → α} {m m' : Parser α}

/-- A result without the spans of its cursor and error. -/
def eraseResult (f : α → α) :
    EStateM.Result ParseError Cursor α → EStateM.Result ParseError Cursor α
  | .ok a c => .ok (f a) c.erase
  | .error e c => .error e.erase c.erase

/-- From an erased cursor, `m'` does what `m` does from the cursor itself, up to erasing. -/
def Erases (f : α → α) (m m' : Parser α) : Prop :=
  ∀ c, m' c.erase = eraseResult f (m c)

theorem Erases.of_alike (h : Alike true (fun _ => Erases) f m m') : Erases f m m' := by
  induction h with
  | part h => exact h
  | pure h => exact fun _ => h ▸ rfl
  | @bind _ _ _ g m m' k k' _ _ ihm ihk =>
    intro c
    change EStateM.bind m' k' c.erase = eraseResult g (EStateM.bind m k c)
    unfold EStateM.bind
    rw [ihm c]
    cases m c with
    | ok a d => exact ihk a d
    | error e d => rfl
  | @step α _ g _ hsame _ =>
    exact fun c => congrArg (fun r : α × Cursor => EStateM.Result.ok r.1 r.2) (hsame c)
  | throw => exact fun _ => rfl
  | @recovering _ _ m _ _ ih =>
    intro c
    unfold recovering
    rw [ih c]
    cases m c with
    | ok a d => rfl
    | error e d =>
      have hfatal : e.erase.fault.isFatal = e.fault.isFatal := e.fault.isFatal_erase
      simp only [eraseResult, hfatal]
      split
      · rfl
      · rw [Cursor.report_erase, Cursor.skipStatement_erase]
        rfl

theorem Erases.opened (hm : Erases f m m') : Erases f (Parser.opened m) (Parser.opened m') := by
  intro c
  have hopen : { c.erase with depth := c.erase.depth + 1 } =
      Cursor.erase { c with depth := c.depth + 1 } := rfl
  unfold Parser.opened
  rw [hopen, hm]
  cases m { c with depth := c.depth + 1 } <;> rfl

/-- Where nesting is too deep, the next token is not looked at. -/
theorem erases_tooDeep : Erases f (fail fun _ => .nestingTooDeep) (fail fun _ => .nestingTooDeep) :=
  fun c => congrArg (fun s => EStateM.Result.error (ParseError.mk .nestingTooDeep s) c.erase)
    c.span_erase

theorem erases_expr (levels : Nat) : Erases Expr.unspanned (expr levels) (expr levels) := by
  induction levels with
  | zero => exact erases_tooDeep
  | succ levels ih => exact .opened (.of_alike (alike_operatorLevels (.part ih)))

theorem erases_block (levels : Nat) : Erases Block.unspanned (block levels) (block levels) := by
  induction levels with
  | zero => exact erases_tooDeep
  | succ levels ih =>
    exact .opened
      (.of_alike (alike_blockIn (alike_statement (.part (erases_expr levels)) (.part ih))))

theorem erases_item : Erases Item.unspanned item item :=
  .of_alike (alike_item (.part (erases_block maxNesting)))

/-- The items of a program, read from erased tokens. -/
theorem programFrom_erase (rounds : Nat) (c : Cursor) :
    programFrom rounds c.erase =
      ((programFrom rounds c).1.map Item.unspanned, (programFrom rounds c).2.erase) := by
  unfold programFrom
  induction rounds generalizing c with
  | zero => rfl
  | succ rounds ih =>
    unfold programOver
    rw [c.atEnd_erase, erases_item c]
    split
    · rfl
    cases item c with
    | ok i d =>
      simp only [eraseResult, ih]
      rfl
    | error e d =>
      have hfatal : e.erase.fault.isFatal = e.fault.isFatal := e.fault.isFatal_erase
      have hlength (c : Cursor) : c.erase.rest.length = c.rest.length := List.length_map _
      simp only [eraseResult, Cursor.report_erase, hfatal, hlength, Cursor.advance_erase,
        Cursor.skipItem_erase, ih]
      split
      · rfl
      split <;> rfl

end Parser

/-- Parsing does not see more of the tokens than their kinds. -/
theorem parseProgram_erase (tokens : List Token) :
    parseProgram (tokens.map Token.erase) =
      ((parseProgram tokens).1.unspanned, (parseProgram tokens).2.map ParseError.erase) := by
  have hfrom := Parser.programFrom_erase tokens.length { rest := tokens }
  have hstart : Cursor.erase { rest := tokens } = { rest := tokens.map Token.erase } := rfl
  rw [hstart] at hfrom
  simp only [parseProgram, List.length_map, hfrom, List.getLast?_map, Program.unspanned,
    Program.erase, Parser.filterMap_function?_erase, Parser.filterMap_classDef?_erase]
  cases tokens.getLast? <;> rfl

end DeferLang
