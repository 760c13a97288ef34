import DeferLang.Program.ParseExpr

/-!
# Parsing programs

Statements, blocks, classes and functions, with recovery: a statement or member
that cannot be parsed is skipped up to its end, an item up to the next item.
Nesting that is too deep ends parsing.
-/

namespace DeferLang

namespace Parser

/-- At most `rounds` further modifiers of a type. -/
def modifiersFrom : Nat → Parser (List TypeModifier)
  | 0 => return []
  | rounds + 1 => do
      match ← kind? with
      | some (.mark .star) =>
        advance
        return .pointer :: (← modifiersFrom rounds)
      | some (.mark .amp) =>
        advance
        return .reference :: (← modifiersFrom rounds)
      | _ => return []

/-- The name that a type starts with. -/
def typeName : Parser TypeName := do
  match ← kind? with
  | some (.keyword .intKw) => advance; return .int
  | some (.keyword .boolKw) => advance; return .bool
  | some (.keyword .voidKw) => advance; return .void
  | some (.keyword .autoKw) => advance; return .auto
  | some (.ident _) => return .named (← ident)
  | _ => fail .expectedType

/-- A written type. -/
def typeRef : Parser TypeRef := do
  let start ← span
  let isConst ← isAtKeyword .constKw
  if isConst then advance
  let base ← typeName
  let modifiers ← modifiersFrom (← tokensLeft)
  return ⟨Span.join start (← lastSpan), isConst, base, modifiers⟩

/-- At most `rounds` more arguments, each after a comma. -/
def argsFrom (expr : Parser Expr) : Nat → Parser (List Expr)
  | 0 => return []
  | rounds + 1 => do
      if ← isAtMark .comma then
        advance
        let e ← expr
        return e :: (← argsFrom expr rounds)
      else
        return []

/-- The arguments of a call, up to its closing parenthesis. -/
def args (expr : Parser Expr) : Parser (List Expr) := do
  if ← isAtMark .rparen then
    return []
  else
    let e ← expr
    return e :: (← argsFrom expr (← tokensLeft))

/-- A call. -/
def call (expr : Parser Expr) : Parser Call := do
  let callee ← ident
  let id ← freshId
  let _ ← expectMark .lparen
  let arguments ← args expr
  let close ← expectMark .rparen
  return ⟨id, Span.join callee.span close, callee, arguments⟩

/-- A declaration with its semicolon. -/
def varDecl (expr : Parser Expr) : Parser VarDecl := do
  let type ← typeRef
  let id ← freshId
  let name ← ident
  let init ←
    if ← isAtMark .assign then
      advance
      some <$> expr
    else
      pure none
  let close ← expectMark .semi
  return ⟨id, Span.join type.span close, type, name, init⟩

def assignment (expr : Parser Expr) : Parser Stmt := do
  let target ← expr
  let _ ← expectMark .assign
  let value ← expr
  let close ← expectMark .semi
  return .assign (Span.join target.span close) target value

def callStmt (expr : Parser Expr) : Parser Stmt := do
  let c ← call expr
  let close ← expectMark .semi
  return .call (Span.join c.span close) c

/-- A condition in parentheses. -/
def condition (expr : Parser Expr) : Parser Expr := do
  let _ ← expectMark .lparen
  let e ← expr
  let _ ← expectMark .rparen
  return e

def ifStmt (expr : Parser Expr) (block : Parser Block) : Parser Stmt := do
  let start ← expectKeyword .ifKw
  let cond ← condition expr
  let thenBody ← block
  if ← isAtKeyword .elseKw then
    advance
    let elseBody ← block
    return .ifElse (Span.join start elseBody.span) cond thenBody (some elseBody)
  else
    return .ifElse (Span.join start thenBody.span) cond thenBody none

def whileStmt (expr : Parser Expr) (block : Parser Block) : Parser Stmt := do
  let start ← expectKeyword .whileKw
  let cond ← condition expr
  let body ← block
  return .whileLoop (Span.join start body.span) cond body

def forStmt (expr : Parser Expr) (block : Parser Block) : Parser Stmt := do
  let start ← expectKeyword .forKw
  let id ← freshId
  let _ ← expectMark .lparen
  let var ← ident
  let _ ← expectKeyword .inKw
  let iter ← expr
  let _ ← expectMark .rparen
  let body ← block
  return .forIn id (Span.join start body.span) var iter body

def returnStmt (expr : Parser Expr) : Parser Stmt := do
  let start ← expectKeyword .returnKw
  let value ←
    if ← isAtMark .semi then
      pure none
    else
      some <$> expr
  let close ← expectMark .semi
  return .ret (Span.join start close) value

def deferStmt (expr : Parser Expr) : Parser Stmt := do
  let start ← expectKeyword .deferKw
  let c ← call expr
  let close ← expectMark .semi
  return .defer (Span.join start close) c

/-- Whether tokens, after any stars and ampersands, go on with an identifier. -/
def declaratorFollows : List Token → Bool
  | [] => false
  | t :: ts =>
    match t.kind with
    | .mark .star => declaratorFollows ts
    | .mark .amp => declaratorFollows ts
    | .ident _ => true
    | _ => false

/-- A statement that starts with an identifier.  A name, stars and ampersands, and another
name make a declaration; a name and a parenthesis make a call. -/
def namedStmt (expr : Parser Expr) (name : String) : Parser Stmt := do
  let c ← get
  if name = "break" ∨ name = "continue" then
    fail fun _ => .unsupportedJump name
  else if declaratorFollows c.rest.tail then
    .varDecl <$> varDecl expr
  else if c.kindAt 1 = some (.mark .lparen) then
    callStmt expr
  else
    assignment expr

/-- A statement, over parsers of the expressions and blocks in it. -/
def statement (expr : Parser Expr) (block : Parser Block) : Parser Stmt := do
  match ← kind? with
  | some (.mark .lbrace) => .block <$> block
  | some (.keyword .ifKw) => ifStmt expr block
  | some (.keyword .whileKw) => whileStmt expr block
  | some (.keyword .forKw) => forStmt expr block
  | some (.keyword .returnKw) => returnStmt expr
  | some (.keyword .deferKw) => deferStmt expr
  | some (.keyword .constKw) => .varDecl <$> varDecl expr
  | some (.keyword .intKw) => .varDecl <$> varDecl expr
  | some (.keyword .boolKw) => .varDecl <$> varDecl expr
  | some (.keyword .voidKw) => .varDecl <$> varDecl expr
  | some (.keyword .autoKw) => .varDecl <$> varDecl expr
  | some (.ident name) => namedStmt expr name
  | some (.int _) => assignment expr
  | some (.str _) => assignment expr
  | some (.keyword .trueKw) => assignment expr
  | some (.keyword .falseKw) => assignment expr
  | some (.keyword .rangeKw) => assignment expr
  | some (.mark .lparen) => assignment expr
  | _ => fail .expectedStmt

/-- At most `rounds` items of a braced list, up to its closing brace or the end of input.
Items that cannot be parsed are reported and skipped. -/
def itemsFrom {α : Type} (item : Parser α) : Nat → Parser (List α)
  | 0 => return []
  | rounds + 1 => do
      if (← isAtMark .rbrace) || (← get).atEnd then
        return []
      else
        match ← recovering item with
        | some a => return a :: (← itemsFrom item rounds)
        | none => itemsFrom item rounds

/-- A block of statements.  A block that the input does not close is reported and kept. -/
def blockOf (stmt : Parser Stmt) : Parser Block := opened do
  let start ← expectMark .lbrace
  let id ← freshId
  let stmts ← itemsFrom stmt (← tokensLeft)
  if ← isAtMark .rbrace then
    let close ← span
    advance
    return ⟨id, Span.join start close, stmts⟩
  else
    let c ← get
    set (c.report ⟨.unclosedBlock c.found, c.span⟩)
    return ⟨id, Span.join start c.lastSpan, stmts⟩

/-- A block, with `levels` blocks and expressions left to open. -/
def block : Nat → Parser Block
  | 0 => fail fun _ => .nestingTooDeep
  | levels + 1 => blockOf (statement (expr levels) (block levels))

/-- The name of the class that a special member belongs to. -/
def ownName (className : String) (fault : String → ParseFault) : Parser Unit := do
  let name ← ident
  if name.name ≠ className then
    throw ⟨fault name.name, name.span⟩

/-- Read an identifier if there is one. -/
def skipIdent : Parser Unit := do
  match ← kind? with
  | some (.ident _) => advance
  | _ => return ()

/-- The parameters of a constructor, which tell its kind. -/
def ctorParameters (className : String) : Parser CtorKind := do
  match ← kind? with
  | some (.mark .rparen) => return .default
  | some (.keyword .constKw) =>
    advance
    ownName className (.ctorParameterType className)
    let _ ← expectMark .amp
    skipIdent
    return .copy
  | some (.ident _) =>
    ownName className (.ctorParameterType className)
    let _ ← expectMark .andAnd
    skipIdent
    return .move
  | _ => fail (.unsupportedCtor className)

/-- The definition of a special member, over a parser of its body. -/
def ctorBodyOver (block : Parser Block) : Parser CtorBody := do
  if ← isAtMark .lbrace then
    .body <$> block
  else if ← isAtMark .assign then
    advance
    let body ← (do
      match ← kind? with
      | some (.keyword .defaultKw) => return .defaulted
      | some (.ident name) =>
        if name = "delete" then return .deleted else fail .expectedDefaultOrDelete
      | _ => fail .expectedDefaultOrDelete : Parser CtorBody)
    advance
    let _ ← expectMark .semi
    return body
  else
    fail .expectedCtorBody

def ctorBody : Parser CtorBody :=
  ctorBodyOver (block maxNesting)

/-- A member of a class. -/
inductive Member where
  | field (field : FieldDef)
  | ctor (ctor : CtorDecl)

def destructorOver (body : Parser CtorBody) (className : String) : Parser CtorDecl := do
  let start ← expectMark .tilde
  ownName className (.destructorName · className)
  let _ ← expectMark .lparen
  let _ ← expectMark .rparen
  let body ← body
  return ⟨Span.join start (← lastSpan), .destructor, false, body⟩

def destructor (className : String) : Parser CtorDecl :=
  destructorOver ctorBody className

/-- A constructor from its name on; `start` is where it starts. -/
def constructorOver (body : Parser CtorBody) (className : String) (start : Span)
    (isExplicit : Bool) : Parser CtorDecl := do
  advance
  advance
  let kind ← ctorParameters className
  let _ ← expectMark .rparen
  let body ← body
  return ⟨Span.join start (← lastSpan), kind, isExplicit, body⟩

def constructor (className : String) (start : Span) (isExplicit : Bool) : Parser CtorDecl :=
  constructorOver ctorBody className start isExplicit

def fieldDef : Parser FieldDef := do
  let type ← typeRef
  let name ← ident
  let close ← expectMark .semi
  return ⟨Span.join type.span close, type, name⟩

/-- Whether the name of the class and a parenthesis follow. -/
def isAtCtor (className : String) : Parser Bool := do
  let c ← get
  return c.kind? = some (.ident className) ∧ c.kindAt 1 = some (.mark .lparen)

/-- A member, over a parser of the definitions of special members. -/
def memberOver (body : Parser CtorBody) (className : String) : Parser Member := do
  if ← isAtMark .tilde then
    .ctor <$> destructorOver body className
  else
    let start ← span
    let isExplicit ← isAtKeyword .explicitKw
    if isExplicit then advance
    if ← isAtCtor className then
      .ctor <$> constructorOver body className start isExplicit
    else if isExplicit then
      fail fun _ => .explicitWithoutCtor className
    else
      .field <$> fieldDef

def member (className : String) : Parser Member :=
  memberOver ctorBody className

def Member.field? : Member → Option FieldDef
  | .field f => some f
  | .ctor _ => none

def Member.ctor? : Member → Option CtorDecl
  | .field _ => none
  | .ctor c => some c

/-- A class, over a parser of the members of a named class. -/
def classDefOver (member : String → Parser Member) : Parser ClassDef := do
  let start ← expectKeyword .classKw
  let id ← freshId
  let name ← ident
  let _ ← expectMark .lbrace
  let members ← itemsFrom (member name.name) (← tokensLeft)
  let close ← expectMark .rbrace
  let stop ←
    if ← isAtMark .semi then
      let s ← span
      advance
      pure s
    else
      pure close
  return ⟨id, Span.join start stop, name, members.filterMap Member.field?,
    members.filterMap Member.ctor?⟩

def classDef : Parser ClassDef :=
  classDefOver member

/-- A function, over a parser of its body. -/
def functionOver (block : Parser Block) : Parser Function := do
  let start ← expectKeyword .fnKw
  let id ← freshId
  let name ← ident
  let _ ← expectMark .lparen
  if ← isAtMark .rparen then
    advance
    let body ← block
    return ⟨id, Span.join start body.span, name, body⟩
  else
    fail .unexpectedParameters

def function : Parser Function :=
  functionOver (block maxNesting)

/-- A function or a class. -/
inductive Item where
  | ofFunction (function : Function)
  | ofClass (classDef : ClassDef)

def Item.function? : Item → Option Function
  | .ofFunction f => some f
  | .ofClass _ => none

def Item.classDef? : Item → Option ClassDef
  | .ofFunction _ => none
  | .ofClass c => some c

/-- An item, over parsers of functions and classes. -/
def itemOver (function : Parser Function) (classDef : Parser ClassDef) : Parser Item := do
  match ← kind? with
  | some (.keyword .fnKw) => .ofFunction <$> function
  | some (.keyword .classKw) => .ofClass <$> classDef
  | _ => fail .expectedItem

def item : Parser Item :=
  itemOver function classDef

/-- At most `rounds` items of a program.  An item that cannot be parsed is reported and
skipped, and at least one token of it with it. -/
def programOver (item : Parser Item) : Nat → Cursor → List Item × Cursor
  | 0, c => ([], c)
  | rounds + 1, c =>
    if c.atEnd then
      ([], c)
    else
      match item c with
      | .ok i c' =>
        let (items, final) := programOver item rounds c'
        (i :: items, final)
      | .error e c' =>
        let reported := c'.report e
        if e.fault.isFatal then
          ([], reported)
        else if reported.rest.length = c.rest.length then
          programOver item rounds reported.advance.skipItem
        else
          programOver item rounds reported.skipItem

def programFrom : Nat → Cursor → List Item × Cursor :=
  programOver item

end Parser

/-- The program of a token stream, and what is wrong with the stream. -/
def parseProgram (tokens : List Token) : Program × List ParseError :=
  let (items, final) := Parser.programFrom tokens.length { rest := tokens }
  let stop := match tokens.getLast? with
    | some t => t.span.stop
    | none => 0
  ({ span := Span.between 0 stop
     functions := items.filterMap Parser.Item.function?
     classes := items.filterMap Parser.Item.classDef? }, final.errors)

/-- The expression at the start of a token stream; what follows it is not read. -/
def parseExpr (tokens : List Token) : Except ParseError Expr :=
  match Parser.expr maxNesting { rest := tokens } with
  | .ok e _ => .ok e
  | .error e _ => .error e

end DeferLang
