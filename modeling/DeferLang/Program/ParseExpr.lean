import DeferLang.Program.Cursor

/-!
# Parsing expressions

Binary operators associate to the left and bind, from the loosest, as
conjunction, comparison, addition and multiplication; field access binds
tightest.  A parser of expressions takes the number of blocks and expressions
that can still be opened, and every parenthesis spends one.

The loops count down from the number of tokens left.  Every round of a loop
reads a token, so the count never ends a loop early.
-/

namespace DeferLang

namespace Parser

/-- The conjunction that a token stands for. -/
def conjunctionOp : TokenKind → Option BinOp
  | .mark .andAnd => some .and
  | _ => none

/-- The comparison that a token stands for. -/
def comparisonOp : TokenKind → Option BinOp
  | .mark .eqEq => some .eq
  | .mark .notEq => some .ne
  | .mark .less => some .lt
  | .mark .greater => some .gt
  | .mark .lessEq => some .le
  | .mark .greaterEq => some .ge
  | _ => none

/-- The additive operator that a token stands for. -/
def additiveOp : TokenKind → Option BinOp
  | .mark .plus => some .add
  | .mark .minus => some .sub
  | _ => none

/-- The multiplicative operator that a token stands for. -/
def multiplicativeOp : TokenKind → Option BinOp
  | .mark .star => some .mul
  | .mark .slash => some .div
  | .mark .percent => some .rem
  | _ => none

/-- At most `rounds` more operators with their right operands after `left`. -/
def chainFrom (op? : TokenKind → Option BinOp) (operand : Parser Expr) :
    Nat → Expr → Parser Expr
  | 0, left => return left
  | rounds + 1, left => do
      match (← kind?).bind op? with
      | none => return left
      | some op =>
        let opSpan ← span
        advance
        let right ← operand
        let id ← freshId
        chainFrom op? operand rounds
          (.binary id (Span.join left.span right.span) op opSpan left right)

/-- Operands joined by operators of one level, which associate to the left. -/
def chain (op? : TokenKind → Option BinOp) (operand : Parser Expr) : Parser Expr := do
  let first ← operand
  chainFrom op? operand (← tokensLeft) first

/-- At most `rounds` more field accesses after `base`. -/
def fieldsFrom : Nat → Expr → Parser Expr
  | 0, base => return base
  | rounds + 1, base => do
      if ← isAtMark .dot then
        advance
        let name ← ident
        let id ← freshId
        fieldsFrom rounds (.field id (Span.join base.span name.span) base name)
      else
        return base

/-- A literal, a variable, a range, or an expression in parentheses. -/
def primary (inner : Parser Expr) : Parser Expr := do
  let start ← span
  match ← kind? with
  | some (.int value) =>
    advance
    return .int (← freshId) start value
  | some (.keyword .trueKw) =>
    advance
    return .bool (← freshId) start true
  | some (.keyword .falseKw) =>
    advance
    return .bool (← freshId) start false
  | some (.str value) =>
    advance
    return .str (← freshId) start value
  | some (.ident name) =>
    advance
    return .var (← freshId) ⟨name, start⟩
  | some (.keyword .rangeKw) =>
    advance
    let _ ← expectMark .lparen
    let bound ← inner
    let close ← expectMark .rparen
    return .range (← freshId) (Span.join start close) bound
  | some (.mark .lparen) =>
    advance
    let e ← inner
    let _ ← expectMark .rparen
    return e
  | _ => fail .expectedExpr

/-- A primary expression with the field accesses behind it. -/
def accessed (inner : Parser Expr) : Parser Expr := do
  let base ← primary inner
  fieldsFrom (← tokensLeft) base

/-- The operator levels over primary expressions whose parentheses hold `inner`. -/
def operators (inner : Parser Expr) : Parser Expr :=
  opened <| chain conjunctionOp <| chain comparisonOp <| chain additiveOp <|
    chain multiplicativeOp <| accessed inner

/-- An expression, with `levels` blocks and expressions left to open. -/
def expr : Nat → Parser Expr
  | 0 => fail fun _ => .nestingTooDeep
  | levels + 1 => operators (expr levels)

end Parser

end DeferLang
