import DeferLang.Typing.Context
import DeferLang.Typing.Fault

/-!
# Checking names and types

Checking walks a program in source order, declares and resolves names, and
types every expression.  It never stops: every fault is reported, and what
cannot be typed is `unknown` from there on.
-/

namespace DeferLang

/-- The state of checking: what is known, the open scopes, and the faults so far. -/
structure Checker where
  context : Context := {}
  scopes : ScopeStack := []
  errors : List TypingError := []

/-- A step of checking. -/
abbrev Check (α : Type) := StateM Checker α

/-- The largest value of `int`. -/
def maxInt : Nat :=
  2147483647

namespace Check

def report (fault : TypingFault) (span : Span) : Check Unit :=
  modify fun s => { s with errors := s.errors ++ [⟨fault, span⟩] }

def reportIf (cond : Bool) (fault : TypingFault) (span : Span) : Check Unit :=
  if cond then report fault span else pure ()

def updateContext (f : Context → Context) : Check Unit :=
  modify fun s => { s with context := f s.context }

/-- Record the type of an expression. -/
def typed (expr : NodeId) (type : Ty) : Check Ty := do
  updateContext fun c => { c with exprTypes := (expr, type) :: c.exprTypes }
  return type

/-- Change the symbol with a number. -/
def updateSymbol (id : SymbolId) (f : Symbol → Symbol) : Check Unit :=
  updateContext fun c => { c with symbols := c.symbols.update id f }

/-- The symbol that a name stands for here. -/
def lookup? (name : String) : Check (Option SymbolId) := do
  return (← get).scopes.lookup name

def symbol? (id : SymbolId) : Check (Option Symbol) := do
  return (← get).context.symbols.get? id

/-- Resolve a variable expression.  Its symbol counts as used. -/
def resolveVar (expr : NodeId) (name : Ident) : Check Ty := do
  match ← lookup? name.name with
  | none =>
    report (.undeclared name.name) name.span
    return .unknown
  | some id =>
    updateContext fun c => { c with resolutions := (expr, id) :: c.resolutions }
    updateSymbol id fun s => { s with used := true }
    match ← symbol? id with
    | some s => return s.type
    | none => return .unknown

/-- Resolve a variable that is read. -/
def readVar (expr : NodeId) (name : Ident) : Check Ty := do
  let type ← resolveVar expr name
  match ← lookup? name.name with
  | none => return type
  | some id =>
    match ← symbol? id with
    | some s =>
      reportIf (!s.initialized) (.readBeforeStore name.name) name.span
      return type
    | none => return type

end Check

/-- The type that an operator demands of its operands, if it demands one. -/
def BinOp.operandType? (op : BinOp) : Option Ty :=
  if op.isArithmetic then some .int
  else
    match op with
    | .and => some .bool
    | .eq => none
    | .ne => none
    | _ => some .int

/-- The type of an operator's result. -/
def BinOp.resultType (op : BinOp) : Ty :=
  if op.isArithmetic then .int else .bool

/-- Whether values of a type can be compared for equality. -/
def Ty.isComparable (t : Ty) : Bool :=
  t = .int ∨ t = .bool

/-- Whether values of a type can be printed.  What is unknown passes. -/
def Ty.isPrintable (t : Ty) : Bool :=
  t = .int ∨ t = .bool ∨ t = .str ∨ t = .unknown

namespace Check

/-- The type of a binary operation over the types of what its operands read. -/
def binary (op : BinOp) (left right : Expr) (leftType rightType : Ty) : Check Ty := do
  match op.operandType? with
  | some want =>
    reportIf (leftType ≠ want ∧ leftType ≠ .unknown) (.operandType op want leftType) left.span
    reportIf (rightType ≠ want ∧ rightType ≠ .unknown) (.operandType op want rightType)
      right.span
  | none =>
    reportIf
      (leftType ≠ .unknown ∧ rightType ≠ .unknown ∧
        (leftType ≠ rightType ∨ leftType.isComparable = false))
      (.incomparable leftType rightType) (Span.join left.span right.span)
  return op.resultType

/-- The type of a field of a value. -/
def fieldOf (baseType : Ty) (field : Ident) : Check Ty := do
  if baseType = .unknown then
    return .unknown
  else
    match baseType.className? with
    | none =>
      report (.fieldOfNonClass field.name baseType) field.span
      return .unknown
    | some className =>
      match ((← get).context.class? className).bind (·.fieldType? field.name) with
      | some type => return type
      | none =>
        report (.unknownField className field.name) field.span
        return .unknown

/-- Type an expression and record its type. -/
def expr : Expr → Check Ty
  | .bool id _ _ => typed id .bool
  | .int id span value => do
      reportIf (maxInt < value) (.intOutOfRange value) span
      typed id .int
  | .str id _ _ => typed id .str
  | .var id name => do
      typed id (← readVar id name)
  | .binary id _ op _ left right => do
      let leftType ← expr left
      let rightType ← expr right
      typed id (← binary op left right leftType.deref rightType.deref)
  | .field id _ base name => do
      let baseType ← expr base
      typed id (← fieldOf baseType name)
  | .range id _ bound => do
      let found := (← expr bound).deref
      reportIf (found ≠ .int ∧ found ≠ .unknown) (.rangeOfNonInt found) bound.span
      typed id (.sequence .int)

/-- Type expressions in order. -/
def exprs : List Expr → Check (List Ty)
  | [] => return []
  | e :: es => do
      let type ← expr e
      return type :: (← exprs es)

/-- Whether a value can be stored where another type is expected. -/
def assignable (expected found : Ty) (span : Span) : Check Unit :=
  reportIf (expected ≠ .unknown ∧ found ≠ .unknown ∧ expected.deref ≠ found.deref)
    (.mismatch expected found) span

/-- Type the left side of an assignment.  A plain variable is written, not read. -/
def target : Expr → Check Ty
  | .var id name => do
      typed id (← resolveVar id name)
  | e => expr e

/-- Store to a plain variable: report a constant, or note the store.  Gives whether the
store is allowed. -/
def storeTo (name : Ident) : Check Bool := do
  match ← lookup? name.name with
  | none => return true
  | some id =>
    match ← symbol? id with
    | none => return true
    | some s =>
      if s.isConst then
        report (.constAssigned name.name) name.span
        return false
      else
        updateSymbol id fun s => { s with initialized := true }
        return true

def assignment (left value : Expr) : Check Unit := do
  let leftType ← target left
  let valueType ← expr value
  if left.isLvalue then
    let allowed ← match left.asVar? with
      | some name => storeTo name
      | none => pure true
    if allowed then
      assignable leftType.deref valueType value.span
  else
    report .notAssignable left.span

def condition (construct : String) (cond : Expr) : Check Unit := do
  let found := (← expr cond).deref
  reportIf (found ≠ .bool ∧ found ≠ .unknown) (.conditionNotBool construct found) cond.span

/-- Arguments of a runtime cleanup routine: anything but a range. -/
def cleanupArgs : List (Expr × Ty) → Check Unit
  | [] => return ()
  | (arg, type) :: rest => do
      match type with
      | .sequence _ => report .rangeInCleanup arg.span
      | _ => pure ()
      cleanupArgs rest

/-- Check a call.  Functions that are not defined can only be called from `defer`. -/
def call (c : Call) (isDeferred : Bool) : Check Unit := do
  let types ← exprs c.args
  let _ ← typed c.id .void
  let callee := c.callee.name
  if callee = printName then
    match c.args, types with
    | [arg], [type] =>
      reportIf (!type.deref.isPrintable) (.notPrintable type.deref) arg.span
    | _, _ => report (.printArity c.args.length) c.span
  else if ((← get).context.function? callee).isSome then
    reportIf (!c.args.isEmpty) (.arity callee c.args.length) c.span
  else if isDeferred then
    cleanupArgs (c.args.zip types)
  else
    report (.unknownFunction callee) c.callee.span

/-- The modifiers of a written type, applied from the inside. -/
def modified (base : Ty) (modifiers : List TypeModifier) : Ty :=
  modifiers.foldl
    (fun t m => match m with
      | .pointer => .pointer t
      | .reference => .reference t)
    base

/-- The type that a written type stands for. -/
def typeRef (t : TypeRef) : Check Ty := do
  match t.base with
  | .int => return modified .int t.modifiers
  | .bool => return modified .bool t.modifiers
  | .void => return modified .void t.modifiers
  | .auto => return modified .unknown t.modifiers
  | .named name =>
    match (← get).context.class? name.name with
    | some info => return modified info.type t.modifiers
    | none =>
      report (.unknownType name.name) name.span
      return .unknown

/-- Declare a name in the innermost scope.  A name that is taken keeps its symbol, but the
declaration makes one all the same. -/
def declare (name : Ident) (type : Ty) (kind : SymbolKind) (decl : NodeId)
    (isConst initialized : Bool) : Check Unit := do
  let s ← get
  let (symbols, id) := s.context.symbols.add
    { name := name.name, type, kind, initialized, isConst, decl, span := name.span, used := false }
  updateContext fun c =>
    { c with symbols := symbols, declSymbols := (decl, id) :: c.declSymbols }
  match s.scopes with
  | [] => return ()
  | scope :: outer =>
    match scope.insert? name.name id with
    | some scope => modify fun s => { s with scopes := scope :: outer }
    | none => report (.redeclared name.name) name.span

/-- The type of a declared variable, over the type of its initializer. -/
def declaredType (d : VarDecl) (initType : Option Ty) : Check Ty := do
  if d.type.base = .auto then
    if d.type.modifiers.isEmpty then
      match initType with
      | some type => return type.deref
      | none =>
        report (.autoWithoutInit d.name.name) d.type.span
        return .unknown
    else
      report .autoWithModifier d.type.span
      return .unknown
  else
    typeRef d.type

/-- A variable of class type needs the constructor that builds it, and the destructor. -/
def specialMembers (d : VarDecl) (className : String) : Check Unit := do
  match (← get).context.class? className with
  | none => return ()
  | some info =>
    let built := if d.init.isSome then CtorKind.copy else CtorKind.default
    reportIf (!info.has built) (.deletedMember d.name.name built className) d.span
    reportIf (!info.has .destructor) (.deletedMember d.name.name .destructor className) d.span

/-- What a variable of a type demands of its declaration. -/
def declarable (d : VarDecl) (type : Ty) : Check Unit := do
  match type with
  | .void => report (.voidVariable d.name.name) d.type.span
  | .str => report (.cannotHold d.name.name type) d.span
  | .sequence _ => report (.cannotHold d.name.name type) d.span
  | .reference _ =>
    match d.init with
    | none => report (.referenceWithoutInit d.name.name) d.span
    | some init => reportIf (!init.isLvalue) (.referenceToValue d.name.name) init.span
  | .object className => specialMembers d className
  | _ => return ()

/-- Type the initializer of a declaration, if it has one. -/
def initializer : Option Expr → Check (Option Ty)
  | none => return none
  | some e => do
      return some (← expr e)

def varDecl (d : VarDecl) : Check Unit := do
  let initType ← initializer d.init
  let type ← declaredType d initType
  declarable d type
  match d.init, initType with
  | some init, some found =>
    if d.type.base ≠ .auto then
      assignable type.deref found init.span
  | _, _ => pure ()
  declare d.name type .local d.id d.type.isConst (d.init.isSome || type.className?.isSome)

/-- A name that starts with an underscore says that its variable may stay unused. -/
def mayStayUnused (name : String) : Bool :=
  name.toList.head? = some '_'

/-- Warn about the variables of a scope that nothing uses. -/
def unusedIn : List SymbolId → Check Unit
  | [] => return ()
  | id :: ids => do
      match ← symbol? id with
      | some s =>
        reportIf (!s.used && s.kind = .local && !mayStayUnused s.name) (.unusedLocal s.name) s.span
      | none => pure ()
      unusedIn ids

/-- Open the scope of a block. -/
def openScope (block : NodeId) : Check Unit :=
  modify fun s => { s with scopes := { block } :: s.scopes }

/-- Close the innermost scope, and record what it declared. -/
def closeScope : Check Unit := do
  match (← get).scopes with
  | [] => return ()
  | scope :: outer =>
    modify fun s => { s with scopes := outer }
    updateContext fun c =>
      { c with scopeLocals := (scope.block, scope.symbols) :: c.scopeLocals }
    unusedIn scope.symbols

mutual

def stmt : Stmt → Check Unit
  | .varDecl d => varDecl d
  | .assign _ left value => assignment left value
  | .call _ c => call c false
  | .block body => block none body
  | .ifElse _ cond thenBody none => do
      condition "if" cond
      block none thenBody
  | .ifElse _ cond thenBody (some elseBody) => do
      condition "if" cond
      block none thenBody
      block none elseBody
  | .whileLoop _ cond body => do
      condition "while" cond
      block none body
  | .forIn id _ var iter body => do
      let found ← expr iter
      reportIf (found ≠ .sequence .int ∧ found ≠ .unknown) (.forOverNonRange found) iter.span
      block (some (id, var)) body
  | .ret _ none => return ()
  | .ret _ (some value) => do
      let _ ← expr value
      report .returnValue value.span
  | .defer _ c => call c true
  | .cleanup _ => return ()
termination_by structural s => s

/-- Check a block in a scope of its own.  The variable of a loop is declared in its body. -/
def block (loopVar : Option (NodeId × Ident)) : BlockOf Stmt → Check Unit
  | ⟨id, _, body⟩ => do
      openScope id
      match loopVar with
      | some (decl, name) => declare name .int .loopVar decl false true
      | none => pure ()
      stmts body
      closeScope
termination_by structural b => b

def stmts : List Stmt → Check Unit
  | [] => return ()
  | s :: ss => do
      stmt s
      stmts ss
termination_by structural ss => ss

end

/-- Make a class known by name. -/
def registerClass (c : ClassDef) : Check Unit := do
  let name := c.name.name
  if ((← get).context.class? name).isSome then
    report (.duplicateClass name) c.name.span
  else
    updateContext fun ctx =>
      { ctx with classes := ctx.classes ++ [{ name, decl := c.id, span := c.span }] }

/-- The fields of a class with their types, after those before them.  The first declaration
of a name counts. -/
def fields (before : List (String × Ty)) : List FieldDef → Check (List (String × Ty))
  | [] => return before
  | f :: fs => do
      let type ← typeRef f.type
      reportIf (type = .void) (.voidField f.name.name) f.type.span
      if (before.lookup f.name.name).isSome then
        report (.duplicateField f.name.name) f.name.span
        fields before fs
      else
        fields (before ++ [(f.name.name, type)]) fs

/-- The special members of a class with their states, after those before them. -/
def ctors (className : String) (before : List (CtorKind × CtorState)) :
    List CtorDecl → Check (List (CtorKind × CtorState))
  | [] => return before
  | c :: cs => do
      reportIf (before.lookup c.kind).isSome (.duplicateCtor c.kind className) c.span
      ctors className ((c.kind, c.body.state) :: before) cs

/-- Record the members of a class, unless it is a second definition of its name. -/
def classMembers (c : ClassDef) : Check Unit := do
  let name := c.name.name
  match (← get).context.class? name with
  | none => return ()
  | some info =>
    if info.decl = c.id then
      let fieldTypes ← fields [] c.fields
      let ctorStates ← ctors name [] c.ctors
      updateContext fun ctx =>
        { ctx with
          classes := ctx.classes.map fun i =>
            if i.name = name then { i with fields := fieldTypes, ctors := ctorStates } else i }

/-- Make a function known by name. -/
def registerFunction (f : Function) : Check Unit := do
  let name := f.name.name
  if name = printName then
    report .builtinRedefined f.name.span
  else if ((← get).context.function? name).isSome then
    report (.duplicateFunction name) f.name.span
  else
    updateContext fun c =>
      { c with functions := c.functions ++ [{ name, decl := f.id, span := f.span }] }

/-- Check a whole program: names of classes first, then their members, then names of
functions, and last the bodies of special members and functions. -/
def program (p : Program) : Check Unit := do
  p.classes.forM registerClass
  p.classes.forM classMembers
  p.functions.forM registerFunction
  p.ctorBlocks.forM (block none)
  p.functions.forM fun f => block none f.body

end Check

/-- What checking learns about a program, and the faults it finds, in order. -/
def Program.check (p : Program) : Context × List TypingError :=
  let final := (Check.program p).run {} |>.2
  (final.context, final.errors)

end DeferLang
