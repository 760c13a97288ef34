import DeferLang.Diagnostic.Basic
import DeferLang.Program.Basic
import DeferLang.Token.Basic

/-!
# Reading a token stream

A parser is a function of a cursor: the tokens that are left, the span of the
token read last, the next free node number, the errors reported so far, and how
many blocks and expressions are open.  A failing parser hands back the cursor at
the point of failure, so that recovery goes on from there.  The end-of-stream
token is never read.
-/

namespace DeferLang

/-- What stands where a parser expected something else. -/
inductive Found where
  | token (lexeme : String)
  | endOfInput
deriving DecidableEq

def Found.text : Found → String
  | .token lexeme => quoted lexeme
  | .endOfInput => "end of input"

/-- What can be wrong with a token stream. -/
inductive ParseFault where
  | expectedToken (kind : TokenKind) (found : Found)
  | expectedType (found : Found)
  | expectedExpr (found : Found)
  | unexpectedParameters (found : Found)
  | unclosedBlock (found : Found)
  | expectedStmt (found : Found)
  | expectedItem (found : Found)
  | unsupportedJump (word : String)
  | destructorName (name className : String)
  | explicitWithoutCtor (className : String)
  | unsupportedCtor (className : String) (found : Found)
  | ctorParameterType (className name : String)
  | expectedCtorBody (found : Found)
  | expectedDefaultOrDelete (found : Found)
  | nestingTooDeep
deriving DecidableEq

/-- How many blocks and expressions can be open at once. -/
def maxNesting : Nat :=
  256

namespace ParseFault

def code : ParseFault → Nat
  | .expectedToken _ _ => 3001
  | .expectedType _ => 3001
  | .expectedExpr _ => 3001
  | .unexpectedParameters _ => 3001
  | .unclosedBlock _ => 3001
  | .expectedStmt _ => 3002
  | .expectedItem _ => 3003
  | .unsupportedJump _ => 3004
  | .destructorName _ _ => 3005
  | .explicitWithoutCtor _ => 3005
  | .unsupportedCtor _ _ => 3005
  | .ctorParameterType _ _ => 3005
  | .expectedCtorBody _ => 3005
  | .expectedDefaultOrDelete _ => 3005
  | .nestingTooDeep => 3006

def message : ParseFault → String
  | .expectedToken kind found => "expected " ++ kind.describe ++ ", found " ++ found.text
  | .expectedType found => "expected type, found " ++ found.text
  | .expectedExpr found => "expected expression, found " ++ found.text
  | .unexpectedParameters found => "expected `)`, found " ++ found.text
  | .unclosedBlock found => "expected `\x7d`, found " ++ found.text
  | .expectedStmt found => "expected statement, found " ++ found.text
  | .expectedItem found => "expected `fn` or `class`, found " ++ found.text
  | .unsupportedJump word => quoted word ++ " is not supported"
  | .destructorName name className =>
    "destructor " ++ quoted ("~" ++ name) ++ " does not match class " ++ quoted className
  | .explicitWithoutCtor className =>
    "`explicit` must be followed by a constructor of " ++ quoted className
  | .unsupportedCtor _ found => "unsupported constructor parameters, found " ++ found.text
  | .ctorParameterType className name =>
    "constructor parameter must have type " ++ quoted className ++ ", found " ++ quoted name
  | .expectedCtorBody found =>
    "expected `= default;`, `= delete;` or a body, found " ++ found.text
  | .expectedDefaultOrDelete found => "expected `default` or `delete`, found " ++ found.text
  | .nestingTooDeep => "nesting exceeds " ++ Nat.repr maxNesting ++ " levels"

def help : ParseFault → Option String
  | .unexpectedParameters _ => some "functions take no parameters"
  | .unclosedBlock _ => some "this block is never closed"
  | .unsupportedJump _ => some "express the loop exit through its condition"
  | .unsupportedCtor className _ =>
    some ("use `()`, " ++ quoted ("(const " ++ className ++ "& other)") ++ " or " ++
      quoted ("(" ++ className ++ "&& other)"))
  | _ => none

/-- Nesting that is too deep ends parsing; the parser recovers from everything else. -/
def isFatal : ParseFault → Bool
  | .nestingTooDeep => true
  | _ => false

end ParseFault

/-- A fault and where it was found. -/
structure ParseError where
  fault : ParseFault
  span : Span
deriving DecidableEq

/-- The diagnostic for a syntax error of a file. -/
def ParseError.toDiagnostic (source : Source) (e : ParseError) : Diagnostic where
  layer := .parser
  severity := if e.fault.isFatal then .fatal else .error
  code := e.fault.code
  message := e.fault.message
  anchors := [Anchor.ofSpan source e.span]
  suggestions := e.fault.help.toList

/-- The state of a parser. -/
structure Cursor where
  rest : List Token
  last : Option Span := none
  nextId : NodeId := 0
  errors : List ParseError := []
  depth : Nat := 0

namespace Cursor

/-- The kind of the `n`-th token from here. -/
def kindAt (c : Cursor) (n : Nat) : Option TokenKind :=
  c.rest[n]?.map Token.kind

/-- The kind of the next token. -/
def kind? (c : Cursor) : Option TokenKind :=
  c.rest.head?.map Token.kind

/-- Whether no token can be read any more. -/
def atEnd (c : Cursor) : Bool :=
  match c.kind? with
  | none => true
  | some kind => kind = .eof

/-- The span of the next token, or of the last one if there is none. -/
def span (c : Cursor) : Span :=
  match c.rest with
  | t :: _ => t.span
  | [] => c.last.getD ⟨0, 0⟩

/-- The span of the token read last, or of the next one if none was read. -/
def lastSpan (c : Cursor) : Span :=
  c.last.getD c.span

/-- The next token, as messages name it. -/
def found (c : Cursor) : Found :=
  match c.rest with
  | [] => .endOfInput
  | t :: _ => if t.kind = .eof then .endOfInput else .token t.lexeme

/-- Read a token.  The end of the stream stays. -/
def advance (c : Cursor) : Cursor :=
  match c.rest with
  | [] => c
  | t :: ts => if t.kind = .eof then c else { c with rest := ts, last := some t.span }

/-- Report an error and go on. -/
def report (c : Cursor) (e : ParseError) : Cursor :=
  { c with errors := c.errors ++ [e] }

/-- The tokens left, and the span read last, after skipping to the end of a statement: past
its semicolon, or past the brace that closes the last of `braces` open ones, or up to the
brace that closes the block around it. -/
def skipStatementIn (braces : Nat) : List Token → Option Span → List Token × Option Span
  | [], last => ([], last)
  | t :: ts, last =>
    if t.kind = .eof then (t :: ts, last)
    else if t.kind = .mark .semi ∧ braces = 0 then (ts, some t.span)
    else if t.kind = .mark .lbrace then skipStatementIn (braces + 1) ts (some t.span)
    else if t.kind = .mark .rbrace then
      match braces with
      | 0 => (t :: ts, last)
      | 1 => (ts, some t.span)
      | left + 2 => skipStatementIn (left + 1) ts (some t.span)
    else skipStatementIn braces ts (some t.span)

/-- Skip what is left of a statement that could not be parsed. -/
def skipStatement (c : Cursor) : Cursor :=
  let (rest, last) := skipStatementIn 0 c.rest c.last
  { c with rest := rest, last := last }

/-- The tokens left, and the span read last, after skipping to the next item. -/
def skipItemIn : List Token → Option Span → List Token × Option Span
  | [], last => ([], last)
  | t :: ts, last =>
    if t.kind = .eof ∨ t.kind = .keyword .fnKw ∨ t.kind = .keyword .classKw then
      (t :: ts, last)
    else
      skipItemIn ts (some t.span)

/-- Skip what is left of an item that could not be parsed. -/
def skipItem (c : Cursor) : Cursor :=
  let (rest, last) := skipItemIn c.rest c.last
  { c with rest := rest, last := last }

end Cursor

/-- A parser reads from a cursor, and gives a value or an error with the cursor behind it. -/
abbrev Parser (α : Type) := EStateM ParseError Cursor α

namespace Parser

/-- Fail at the next token. -/
def fail {α : Type} (fault : Found → ParseFault) : Parser α := do
  let c ← get
  throw ⟨fault c.found, c.span⟩

def kind? : Parser (Option TokenKind) := do
  return (← get).kind?

def span : Parser Span := do
  return (← get).span

def lastSpan : Parser Span := do
  return (← get).lastSpan

def advance : Parser Unit :=
  modify Cursor.advance

/-- A node number that was not used before. -/
def freshId : Parser NodeId :=
  modifyGet fun c => (c.nextId, { c with nextId := c.nextId + 1 })

/-- Whether the next token is of a kind. -/
def isAt (kind : TokenKind) : Parser Bool := do
  return (← get).kind? = some kind

def isAtMark (mark : Mark) : Parser Bool :=
  isAt (.mark mark)

def isAtKeyword (word : Keyword) : Parser Bool :=
  isAt (.keyword word)

/-- Read a token of a kind and give its span; leave any other token where it is. -/
def expect (kind : TokenKind) : Parser Span := do
  if ← isAt kind then
    let s ← span
    advance
    return s
  else
    fail (.expectedToken kind)

def expectMark (mark : Mark) : Parser Span :=
  expect (.mark mark)

def expectKeyword (word : Keyword) : Parser Span :=
  expect (.keyword word)

/-- Read an identifier. -/
def ident : Parser Ident := do
  match ← kind? with
  | some (.ident name) =>
    let s ← span
    advance
    return ⟨name, s⟩
  | _ => fail (.expectedToken (.ident ""))

/-- Run a parser; if it fails, report the error, skip the statement and give nothing.  A fatal
error is passed on. -/
def recovering {α : Type} (p : Parser α) : Parser (Option α) := fun c =>
  match p c with
  | .ok a c => .ok (some a) c
  | .error e c => if e.fault.isFatal then .error e c else .ok none (c.report e).skipStatement

/-- Run a parser with one more block or expression open, which is closed behind it whether it
fails or not. -/
def opened {α : Type} (p : Parser α) : Parser α := fun c =>
  match p { c with depth := c.depth + 1 } with
  | .ok a c => .ok a { c with depth := c.depth - 1 }
  | .error e c => .error e { c with depth := c.depth - 1 }

/-- How many tokens are left. -/
def tokensLeft : Parser Nat := do
  return (← get).rest.length

end Parser

end DeferLang
