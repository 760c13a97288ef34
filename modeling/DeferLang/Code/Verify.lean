import Std.Data.HashMap
import Std.Data.HashSet
import DeferLang.Code.Print

/-!
# Well-formed target code

Verification checks that the functions of a module are well formed: blocks
have distinct numbers and branch to each other, values are defined once, stack
slots are made in the entry block, and operands have the types that their use
demands.  The order of blocks and of definitions and uses is not checked.
-/

namespace DeferLang

namespace Code

/-- What is wrong with a function. -/
inductive VerifyFault where
  | alsoExternal
  | namedDifferently (name : String)
  | noBlocks
  | duplicateBlock (id : BlockId)
  | entryMissing (id : BlockId)
  | slotOutsideEntry (id : ValueId)
  | storeWithResult
  | voidResult (id : ValueId)
  | redefined (id : ValueId)
  | undefinedValue (id : ValueId)
  | unknownConstant (name : String)
  | operandType (found required : ValueType)
  | slotType (id : ValueId) (holds used : ValueType)
  | notASlot (id : ValueId)
  | missingTarget (id : BlockId)
  | undeclaredCallee (callee : String)
  | callResult (callee : String) (result : ValueType)
  | argumentCount (callee : String) (given expected : Nat)
  | argumentType (index : Nat) (callee : String) (given expected : ValueType)
  | returnType (block : BlockId) (given expected : ValueType)
deriving DecidableEq

def VerifyFault.message : VerifyFault → String
  | .alsoExternal => "defined and declared external at the same time"
  | .namedDifferently name => "keyed under a different name (`" ++ name ++ "`)"
  | .noBlocks => "function has no blocks"
  | .duplicateBlock id => "duplicate block id " ++ blockText id
  | .entryMissing id => "entry block " ++ blockText id ++ " missing"
  | .slotOutsideEntry id => "alloca " ++ valueText id ++ " outside the entry block"
  | .storeWithResult => "store produces no value"
  | .voidResult id => valueText id ++ " bound to a void result"
  | .redefined id => valueText id ++ " defined more than once"
  | .undefinedValue id => "use of undefined value " ++ valueText id
  | .unknownConstant name => "reference to unknown global @" ++ name
  | .operandType found required =>
    "operand has type " ++ found.text ++ " where " ++ required.text ++ " is required"
  | .slotType id holds used =>
    valueText id ++ " holds " ++ holds.text ++ " but is accessed as " ++ used.text
  | .notASlot id => valueText id ++ " is not a stack slot"
  | .missingTarget id => "branch to missing block " ++ blockText id
  | .undeclaredCallee callee => "call to undeclared function @" ++ callee
  | .callResult callee result => "call to @" ++ callee ++ " expects a " ++ result.text ++ " result"
  | .argumentCount callee given expected =>
    "call to @" ++ callee ++ " with " ++ Nat.repr given ++ " argument(s), expected " ++
      Nat.repr expected
  | .argumentType index callee given expected =>
    "argument " ++ Nat.repr index ++ " of @" ++ callee ++ " is " ++ given.text ++
      " but the parameter is " ++ expected.text
  | .returnType block given expected =>
    blockText block ++ " returns " ++ given.text ++ " from a " ++ expected.text ++ " function"

/-- A fault of a function. -/
structure VerifyError where
  function : String
  fault : VerifyFault
deriving DecidableEq

def VerifyError.message (e : VerifyError) : String :=
  "IR verification failed in `" ++ e.function ++ "`: " ++ e.fault.message

abbrev Verdict := Except VerifyFault Unit

/-- Fail with a fault unless a condition holds. -/
def demand (holds : Bool) (fault : VerifyFault) : Verdict :=
  if holds then .ok () else .error fault

/-- The numbers of a function's blocks, which must be distinct. -/
def collectBlocks (blocks : List BasicBlock) : Except VerifyFault (Std.HashSet BlockId) :=
  blocks.foldlM
    (fun seen b => if b.id ∈ seen then .error (.duplicateBlock b.id) else .ok (seen.insert b.id))
    ∅

/-- The values that a function defines, with their types. -/
structure Definitions where
  values : Std.HashMap ValueId ValueType := {}
  /-- The stack slots among the values, with the types of what they hold. -/
  slots : Std.HashMap ValueId ValueType := {}

/-- Add the value that an instruction defines. -/
def Definitions.add (defs : Definitions) (inEntry : Bool) (i : Instr) :
    Except VerifyFault Definitions :=
  match i.dest with
  | none => .ok defs
  | some dest => do
      let slots ← match i.operation with
        | .slot type =>
          if inEntry then pure (defs.slots.insert dest type)
          else throw (.slotOutsideEntry dest)
        | _ => pure defs.slots
      let type ← match i.operation.resultType? with
        | none => throw .storeWithResult
        | some type => pure type
      demand (type ≠ .void) (.voidResult dest)
      demand (dest ∉ defs.values) (.redefined dest)
      return { values := defs.values.insert dest type, slots }

/-- All definitions of a function. -/
def Function.definitions (f : Function) : Except VerifyFault Definitions :=
  f.blocks.foldlM
    (fun defs b => b.instrs.foldlM (fun defs i => defs.add (b.id = f.entry) i) defs)
    {}

/-- The type of an operand, which must be defined. -/
def Module.operandType (m : Module) (defs : Definitions) :
    Operand → Except VerifyFault ValueType
  | .value id =>
    match defs.values[id]? with
    | some type => .ok type
    | none => .error (.undefinedValue id)
  | .const32 _ => .ok .i32
  | .const1 _ => .ok .i1
  | .address name =>
    if m.constants.any (·.name = name) then .ok .ptr else .error (.unknownConstant name)

/-- An operand must have the type that its use demands. -/
def Module.checkOperand (m : Module) (defs : Definitions) (operand : Operand)
    (required : ValueType) : Verdict := do
  let found ← m.operandType defs operand
  demand (found = required) (.operandType found required)

/-- An accessed value must be a stack slot for values of the given type. -/
def Definitions.checkSlot (defs : Definitions) (id : ValueId) (used : ValueType) : Verdict :=
  match defs.slots[id]? with
  | some holds => demand (holds = used) (.slotType id holds used)
  | none => .error (.notASlot id)

/-- Arguments must have the types of the parameters; further ones have any type of their own. -/
def Module.checkArgs (m : Module) (defs : Definitions) (callee : String) :
    Nat → List ValueType → CallArgs → Verdict
  | _, _, [] => .ok ()
  | index, [], (type, operand) :: args => do
      m.checkOperand defs operand type
      m.checkArgs defs callee (index + 1) [] args
  | index, param :: params, (type, operand) :: args => do
      demand (param = type) (.argumentType index callee type param)
      m.checkOperand defs operand type
      m.checkArgs defs callee (index + 1) params args

/-- Check a call against the signature of its routine.  That a void call has no result is not
checked here: `Definitions.add` refuses the result where the values are collected. -/
def Module.checkCall (m : Module) (defs : Definitions) (callee : String) (result : ValueType)
    (args : CallArgs) : Verdict :=
  match m.signature? callee with
  | none => .error (.undeclaredCallee callee)
  | some s => do
      demand (s.result = result) (.callResult callee s.result)
      demand (s.params.length = args.length ∨ s.isVariadic ∧ s.params.length < args.length)
        (.argumentCount callee args.length s.params.length)
      m.checkArgs defs callee 0 s.params args

def Module.checkOperation (m : Module) (defs : Definitions) : Operation → Verdict
  | .slot _ => .ok ()
  | .load type slot => defs.checkSlot slot type
  | .store type value slot => do
      defs.checkSlot slot type
      m.checkOperand defs value type
  | .binary _ type left right => do
      m.checkOperand defs left type
      m.checkOperand defs right type
  | .widen value => m.checkOperand defs value .i1
  | .call callee result args => m.checkCall defs callee result args

def Module.checkTerminator (m : Module) (f : Function) (blocks : Std.HashSet BlockId)
    (defs : Definitions) (b : BasicBlock) : Verdict :=
  match b.term with
  | .ret none => demand (f.result = .void) (.returnType b.id .void f.result)
  | .ret (some (type, value)) => do
      demand (type = f.result) (.returnType b.id type f.result)
      m.checkOperand defs value type
  | .jump target => demand (target ∈ blocks) (.missingTarget target)
  | .branch cond thenTarget elseTarget => do
      m.checkOperand defs cond .i1
      demand (thenTarget ∈ blocks) (.missingTarget thenTarget)
      demand (elseTarget ∈ blocks) (.missingTarget elseTarget)

def Module.checkBlock (m : Module) (f : Function) (blocks : Std.HashSet BlockId)
    (defs : Definitions) (b : BasicBlock) : Verdict := do
  b.instrs.forM fun i => m.checkOperation defs i.operation
  m.checkTerminator f blocks defs b

/-- Check a function that the module lists under a name. -/
def Module.checkFunction (m : Module) (name : String) (f : Function) : Verdict := do
  demand ((m.externs.lookup name).isNone) .alsoExternal
  demand (f.name = name) (.namedDifferently f.name)
  demand (!f.blocks.isEmpty) .noBlocks
  let blocks ← collectBlocks f.blocks
  demand (f.entry ∈ blocks) (.entryMissing f.entry)
  let defs ← f.definitions
  f.blocks.forM (m.checkBlock f blocks defs)

/-- Check all functions of a module in order; the first fault counts. -/
def Module.verify (m : Module) : Except VerifyError Unit :=
  m.functions.forM fun (name, f) =>
    match m.checkFunction name f with
    | .ok () => .ok ()
    | .error fault => .error ⟨name, fault⟩

end Code

end DeferLang
