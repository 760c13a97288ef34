import DeferLang.Code.Fault
import DeferLang.Text.Path
import DeferLang.Typing.Context
import DeferLang.Typing.Fault

/-!
# Lowering

Lowering turns the functions of a checked program with its cleanup into target
code.  Every local gets a stack slot, control flow becomes branches between
basic blocks, and a `for` loop becomes as many copies of its body as its
literal bound says.  What target code cannot express is reported, and lowering
goes on.
-/

namespace DeferLang

namespace Code

/-- What lowering can be told. -/
structure LowerOptions where
  /-- The routine that `print` calls. -/
  printSymbol : String := printName
  targetTriple : String

/-- The state of lowering a function in a module.  Lists of what was made so far start with
the latest. -/
structure Lowering where
  module : Module
  errors : List LowerError := []
  result : ValueType := .void
  nextBlock : BlockId := 1
  nextValue : ValueId := 0
  /-- The block that is being filled. -/
  current : BlockId := 0
  instrs : List Instr := []
  slotInstrs : List Instr := []
  blocks : List BasicBlock := []
  slots : List (SymbolId × ValueId × ValueType) := []

/-- A step of lowering. -/
abbrev Lower (α : Type) := StateM Lowering α

/-- The number of the block in which every function starts. -/
def entryBlock : BlockId :=
  0

/-- The program's `main` returns a number, and every other function nothing. -/
def resultType (function : String) : ValueType :=
  if function = "main" then .i32 else .void

/-- What a local without initial value holds. -/
def zero : ValueType → Operand
  | .i1 => .const1 false
  | .i32 => .const32 0
  | .ptr => .const32 0
  | .void => .const32 0

/-- The type of the values of a type, if target code has them. -/
def valueType? (type : Ty) : Option ValueType :=
  match type.deref with
  | .int => some .i32
  | .bool => some .i1
  | _ => none

/-- An integer literal, or the largest number if it is larger. -/
def literal (n : Nat) : Operand :=
  .const32 (Int32.ofNat (min n 2147483647))

/-- The instruction for an operator. -/
def operatorOf : BinOp → Operator
  | .add => .add
  | .sub => .sub
  | .mul => .mul
  | .div => .sdiv
  | .rem => .srem
  | .eq => .eq
  | .ne => .ne
  | .lt => .slt
  | .gt => .sgt
  | .le => .sle
  | .ge => .sge
  | .and => .and

namespace Lower

def report (fault : LowerFault) (span : Span) : Lower Unit :=
  modify fun s => { s with errors := ⟨fault, span⟩ :: s.errors }

def freshBlock : Lower BlockId :=
  modifyGet fun s => (s.nextBlock, { s with nextBlock := s.nextBlock + 1 })

def freshValue : Lower ValueId :=
  modifyGet fun s => (s.nextValue, { s with nextValue := s.nextValue + 1 })

/-- Add an instruction without result. -/
def emit (span : Span) (operation : Operation) : Lower Unit :=
  modify fun s => { s with instrs := ⟨span, none, operation⟩ :: s.instrs }

/-- Add an instruction, and give its result a number. -/
def emitValue (span : Span) (operation : Operation) : Lower ValueId := do
  let dest ← freshValue
  modify fun s => { s with instrs := ⟨span, some dest, operation⟩ :: s.instrs }
  return dest

/-- Make the stack slot of a local. -/
def makeSlot (var : SymbolId) (type : ValueType) (span : Span) : Lower ValueId := do
  let dest ← freshValue
  modify fun s => { s with
    slotInstrs := ⟨span, some dest, .slot type⟩ :: s.slotInstrs
    slots := (var, dest, type) :: s.slots }
  return dest

/-- The slot of the local that a variable expression stands for. -/
def slotOf? (ctx : Context) (expr : NodeId) : Lower (Option (ValueId × ValueType)) := do
  let slots := (← get).slots
  return (ctx.resolve? expr).bind fun var => slots.lookup var

/-- Close the block that is being filled, and go on in another. -/
def close (term : Terminator) (next : BlockId) : Lower Unit :=
  modify fun s => { s with
    blocks := ⟨s.current, s.instrs.reverse, term⟩ :: s.blocks
    instrs := []
    current := next }

/-- The name of the constant for a text. -/
def constant (text : String) : Lower String :=
  modifyGet fun s =>
    let (module, name) := s.module.intern text
    (name, { s with module := module })

/-- How a function is left. -/
def returnTerm (result : ValueType) : Terminator :=
  .ret (if result = .void then none else some (result, .const32 0))

/-- Lower an expression to an operand. -/
def expr (ctx : Context) : Expr → Lower Operand
  | .int _ _ value => return literal value
  | .bool _ _ value => return .const1 value
  | .var id name => do
      match ← slotOf? ctx id with
      | some (slot, type) => return .value (← emitValue name.span (.load type slot))
      | none => return .const32 0
  | .binary _ span op _ left right => do
      let type := (valueType? (ctx.exprType left.id)).getD .i32
      let l ← expr ctx left
      let r ← expr ctx right
      return .value (← emitValue span (.binary (operatorOf op) type l r))
  | .str _ span _ => do
      report .expression span
      return .const32 0
  | .field _ span _ _ => do
      report .expression span
      return .const32 0
  | .range _ span _ => do
      report .expression span
      return .const32 0

/-- The format for a text that is printed as it stands. -/
def printFormat (text : String) : String :=
  String.ofList (text.toList.flatMap fun c => if c = '%' then ['%', '%'] else [c]) ++ "\n"

/-- The signature of the print routine. -/
def printSignature : Signature :=
  ⟨.i32, [.ptr], true⟩

/-- Declare a routine from outside, unless its name is declared already. -/
def declare (name : String) (s : Signature) : Lower Unit :=
  modify fun st =>
    match st.module.externs.lookup name with
    | some _ => st
    | none => { st with module :=
        { st.module with externs := insertNamed name s st.module.externs } }

/-- Lower the printing of a value: texts are formats of their own, truth values are widened
to numbers. -/
def print (ctx : Context) (symbol : String) (span : Span) (arg : Expr) : Lower Unit := do
  declare symbol printSignature
  match arg with
  | .str _ _ text =>
    let format ← constant (printFormat text)
    emit span (.call symbol .i32 [(.ptr, .address format)])
  | _ =>
    let value ← expr ctx arg
    let value ← if (ctx.exprType arg.id).deref = .bool then
        pure (.value (← emitValue arg.span (.widen value)))
      else pure value
    let format ← constant "%d\n"
    emit span (.call symbol .i32 [(.ptr, .address format), (.i32, value)])

/-- Lower an argument of a routine from outside, with its type.  Texts are passed as
addresses. -/
def argument (ctx : Context) (callee : String) (arg : Expr) :
    Lower (Option (ValueType × Operand)) := do
  match arg with
  | .str _ _ text => return some (.ptr, .address (← constant text))
  | _ =>
    match valueType? (ctx.exprType arg.id) with
    | none =>
      report (.argumentType (ctx.exprType arg.id) callee) arg.span
      return none
    | some type => return some (type, ← expr ctx arg)

/-- Lower the arguments in order, up to the first that cannot be passed. -/
def arguments (ctx : Context) (callee : String) :
    List Expr → Lower (Option CallArgs)
  | [] => return some []
  | arg :: args => do
      match ← argument ctx callee arg with
      | none => return none
      | some first =>
        match ← arguments ctx callee args with
        | none => return none
        | some rest => return some (first :: rest)

/-- Lower a call of a routine from outside.  Its first call fixes its signature. -/
def externalCall (ctx : Context) (c : Call) : Lower Unit := do
  match ← arguments ctx c.callee.name c.args with
  | none => return
  | some args =>
    let signature : Signature := ⟨.void, args.map Prod.fst, false⟩
    declare c.callee.name signature
    if (← get).module.externs.lookup c.callee.name = some signature then
      emit c.span (.call c.callee.name .void args)
    else
      report (.conflictingCalls c.callee.name) c.span

/-- Lower a call. -/
def call (ctx : Context) (printSymbol : String) (c : Call) : Lower Unit := do
  let callee := c.callee.name
  if callee = printName then
    match c.args with
    | [] => return
    | arg :: _ => print ctx printSymbol c.span arg
  else if (ctx.function? callee).isSome then
    let result := resultType callee
    if result = .void then
      emit c.span (.call callee result [])
    else
      let _ ← emitValue c.span (.call callee result [])
  else
    externalCall ctx c

/-- The type of a local's slot.  Other types than numbers and truth values are reported,
unless an earlier fault made them unknown. -/
def localType? (type : Ty) (span : Span) : Lower (Option ValueType) := do
  match valueType? type with
  | some t => return some t
  | none =>
    if type ≠ .unknown then
      report (.localType type) span
    return none

/-- Lower a declaration: a slot, and a store of the initial value. -/
def varDecl (ctx : Context) (d : VarDecl) : Lower Unit := do
  match ctx.declSymbol? d.id with
  | none => return
  | some var =>
    let type := ((ctx.symbols.get? var).map Symbol.type).getD .unknown
    match ← localType? type d.name.span with
    | none => return
    | some t =>
      let slot ← makeSlot var t d.span
      let value ← match d.init with
        | some init => expr ctx init
        | none => pure (zero t)
      emit d.span (.store t value slot)

/-- Lower an assignment to a variable. -/
def assign (ctx : Context) (span : Span) (target value : Expr) : Lower Unit := do
  match target with
  | .var id _ =>
    match ← slotOf? ctx id with
    | none => return
    | some (slot, type) =>
      let v ← expr ctx value
      emit span (.store type v slot)
  | _ => report .assignTarget target.span

/-- The literal bound of a range. -/
def literalBound? : Expr → Option Nat
  | .range _ _ (.int _ _ n) => some n
  | _ => none

mutual

/-- Lower a statement. -/
def stmt (ctx : Context) (printSymbol : String) : Stmt → Lower Unit
  | .varDecl d => varDecl ctx d
  | .assign span target value => assign ctx span target value
  | .call _ c => call ctx printSymbol c
  | .block body => block ctx printSymbol body
  | .ifElse _ cond thenBody none => do
      let c ← expr ctx cond
      let thenBlock ← freshBlock
      let merge ← freshBlock
      close (.branch c thenBlock merge) thenBlock
      block ctx printSymbol thenBody
      close (.jump merge) merge
  | .ifElse _ cond thenBody (some elseBody) => do
      let c ← expr ctx cond
      let thenBlock ← freshBlock
      let elseBlock ← freshBlock
      let merge ← freshBlock
      close (.branch c thenBlock elseBlock) thenBlock
      block ctx printSymbol thenBody
      close (.jump merge) elseBlock
      block ctx printSymbol elseBody
      close (.jump merge) merge
  | .whileLoop _ cond body => do
      let header ← freshBlock
      let inside ← freshBlock
      let exit ← freshBlock
      close (.jump header) header
      let c ← expr ctx cond
      close (.branch c inside exit) inside
      block ctx printSymbol body
      close (.jump header) exit
  | .forIn id span var iter body => do
      match literalBound? iter with
      | none => report .boundNotLiteral iter.span
      | some count =>
        if count > maxUnroll then
          report (.boundTooLarge count) iter.span
        else
          match ctx.declSymbol? id with
          | none => return
          | some sym =>
            let slot ← makeSlot sym .i32 var.span
            (List.range count).forM fun i => do
              emit span (.store .i32 (.const32 (Int32.ofNat i)) slot)
              block ctx printSymbol body
  | .ret _ _ => do
      let dead ← freshBlock
      close (returnTerm (← get).result) dead
  | .defer _ _ => return
  | .cleanup c =>
    match c.action with
    | .deferred deferred => call ctx printSymbol deferred
    | .destructor => return
    | .releasedBy _ => return
termination_by structural s => s

/-- Lower a block. -/
def block (ctx : Context) (printSymbol : String) : BlockOf Stmt → Lower Unit
  | ⟨_, _, body⟩ => stmts ctx printSymbol body
termination_by structural b => b

/-- Lower statements in order. -/
def stmts (ctx : Context) (printSymbol : String) : List Stmt → Lower Unit
  | [] => return
  | s :: ss => do
      stmt ctx printSymbol s
      stmts ctx printSymbol ss
termination_by structural ss => ss

end

/-- Close the last block by returning.  A block that nothing leads to and that is empty, as
behind a `return`, is left out. -/
def finish : Lower Unit := do
  let s ← get
  let isReached := s.current = entryBlock ∨ s.blocks.any (s.current ∈ ·.term.targets)
  if isReached ∨ s.instrs ≠ [] then
    close (returnTerm s.result) (← freshBlock)

/-- Put the stack slots in front of the entry block. -/
def withSlots (slots : List Instr) : List BasicBlock → List BasicBlock
  | [] => []
  | b :: rest =>
    if b.id = entryBlock then { b with instrs := slots ++ b.instrs } :: rest
    else b :: withSlots slots rest

/-- Lower a function, and add it to the module. -/
def function (ctx : Context) (printSymbol : String) (f : DeferLang.Function) : Lower Unit := do
  modify fun s =>
    { module := s.module, errors := s.errors, result := resultType f.name.name }
  block ctx printSymbol f.body
  finish
  modify fun s =>
    let code : Function :=
      { name := f.name.name
        span := f.span
        result := s.result
        blocks := withSlots s.slotInstrs.reverse s.blocks.reverse
        entry := entryBlock }
    { s with module :=
        { s.module with functions := insertNamed f.name.name code s.module.functions } }

/-- Lower the functions of a program.  A function with the name of the print routine is
reported and left out. -/
def program (ctx : Context) (printSymbol : String) (p : Program) : Lower Unit :=
  p.functions.forM fun f =>
    if f.name.name = printSymbol then report (.printCollision f.name.name) f.name.span
    else function ctx printSymbol f

end Lower

/-- The module for a program, and what could not be expressed in it, in order. -/
def lowerProgram (ctx : Context) (options : LowerOptions) (name : String) (p : Program) :
    Module × List LowerError :=
  let start : Lowering := { module := { name, targetTriple := options.targetTriple } }
  let final := ((Lower.program ctx options.printSymbol p).run start).2
  (final.module, final.errors.reverse)

/-- The verified module for a program with its cleanup, or why there is none. -/
def emitProgram (ctx : Context) (options : LowerOptions) (source : Source) (p : Program) :
    Except Diagnostics Module :=
  let (module, errors) :=
    lowerProgram ctx options ((fileName? source.path).getD "keel") p
  if errors.isEmpty then
    match module.verify with
    | .ok () => .ok module
    | .error e => .error [e.toDiagnostic]
  else
    .error (errors.map (LowerError.toDiagnostic source))

end Code

end DeferLang
