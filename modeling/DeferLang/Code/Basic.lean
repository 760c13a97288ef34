import DeferLang.Text.Bytes
import DeferLang.Text.Span

/-!
# Target code

A module of target code: functions made of basic blocks over numbered values,
the routines they call from outside, and constant byte strings.  Locals live
in stack slots, so that a value is never assigned twice.
-/

namespace DeferLang

namespace Code

abbrev BlockId := Nat

abbrev ValueId := Nat

/-- The types of values. -/
inductive ValueType where
  | void
  | i1
  | i32
  | ptr
deriving DecidableEq

namespace ValueType

def text : ValueType → String
  | .void => "void"
  | .i1 => "i1"
  | .i32 => "i32"
  | .ptr => "ptr"

/-- The alignment of a stack slot, in bytes. -/
def align : ValueType → Nat
  | .void => 1
  | .i1 => 1
  | .i32 => 4
  | .ptr => 8

end ValueType

/-- The two-operand instructions. -/
inductive Operator where
  | add
  | sub
  | mul
  | sdiv
  | srem
  | eq
  | ne
  | slt
  | sgt
  | sle
  | sge
  | and
deriving DecidableEq

namespace Operator

def text : Operator → String
  | .add => "add"
  | .sub => "sub"
  | .mul => "mul"
  | .sdiv => "sdiv"
  | .srem => "srem"
  | .eq => "icmp eq"
  | .ne => "icmp ne"
  | .slt => "icmp slt"
  | .sgt => "icmp sgt"
  | .sle => "icmp sle"
  | .sge => "icmp sge"
  | .and => "and"

/-- Whether the result is a truth value, whatever the operands are. -/
def isCompare : Operator → Bool
  | .eq => true
  | .ne => true
  | .slt => true
  | .sgt => true
  | .sle => true
  | .sge => true
  | .add => false
  | .sub => false
  | .mul => false
  | .sdiv => false
  | .srem => false
  | .and => false

end Operator

/-- What an instruction works on. -/
inductive Operand where
  | value (id : ValueId)
  | const32 (n : Int32)
  | const1 (b : Bool)
  /-- The address of a constant of the module. -/
  | address (name : String)
deriving DecidableEq

/-- The arguments of a call, each with its type. -/
abbrev CallArgs := List (ValueType × Operand)

/-- What an instruction does. -/
inductive Operation where
  /-- Make a stack slot; only in the entry block. -/
  | slot (type : ValueType)
  | load (type : ValueType) (slot : ValueId)
  | store (type : ValueType) (value : Operand) (slot : ValueId)
  /-- Combine two operands of the given type. -/
  | binary (op : Operator) (type : ValueType) (left right : Operand)
  /-- Widen a truth value to a number. -/
  | widen (value : Operand)
  | call (callee : String) (result : ValueType) (args : CallArgs)
deriving DecidableEq

/-- The type of the value that an operation produces, if it produces one. -/
def Operation.resultType? : Operation → Option ValueType
  | .slot _ => some .ptr
  | .load type _ => some type
  | .store _ _ _ => none
  | .binary op type _ _ => some (if op.isCompare then .i1 else type)
  | .widen _ => some .i32
  | .call _ result _ => some result

/-- An instruction: where its result goes, if anywhere, and what it does. -/
structure Instr where
  span : Span
  dest : Option ValueId
  operation : Operation
deriving DecidableEq

/-- How a basic block ends. -/
inductive Terminator where
  | ret (result : Option (ValueType × Operand))
  | jump (target : BlockId)
  | branch (cond : Operand) (thenTarget elseTarget : BlockId)
deriving DecidableEq

/-- The blocks that may run next. -/
def Terminator.targets : Terminator → List BlockId
  | .ret _ => []
  | .jump target => [target]
  | .branch _ thenTarget elseTarget => [thenTarget, elseTarget]

/-- Instructions that run from the first to the last, and what happens then. -/
structure BasicBlock where
  id : BlockId
  instrs : List Instr
  term : Terminator
deriving DecidableEq

/-- A function of target code.  Functions take no parameters. -/
structure Function where
  name : String
  span : Span
  result : ValueType
  blocks : List BasicBlock
  entry : BlockId
deriving DecidableEq

namespace Function

/-- The first block with a number. -/
def block? (f : Function) (id : BlockId) : Option BasicBlock :=
  f.blocks.find? (·.id = id)

/-- All instructions, block by block. -/
def instrs (f : Function) : List Instr :=
  f.blocks.flatMap BasicBlock.instrs

end Function

/-- How a routine is called. -/
structure Signature where
  result : ValueType
  params : List ValueType
  isVariadic : Bool
deriving DecidableEq

/-- A named constant byte string. -/
structure Constant where
  name : String
  bytes : List UInt8
deriving DecidableEq

/-- Put an entry into a table sorted by name, in place of an entry of that name. -/
def insertNamed {α : Type} (name : String) (entry : α) :
    List (String × α) → List (String × α)
  | [] => [(name, entry)]
  | (n, e) :: rest =>
    if name = n then (name, entry) :: rest
    else if name < n then (name, entry) :: (n, e) :: rest
    else (n, e) :: insertNamed name entry rest

/-- The sorted table with the given entries.  Of several with one name the last counts. -/
def tableOf {α : Type} (entries : List (String × α)) : List (String × α) :=
  entries.foldl (fun table (name, entry) => insertNamed name entry table) []

/-- A module of target code.  Functions and routines from outside are sorted by name. -/
structure Module where
  name : String
  targetTriple : String
  functions : List (String × Function) := []
  externs : List (String × Signature) := []
  constants : List Constant := []
deriving DecidableEq

namespace Module

/-- The bytes of the constant for a text: its characters and a closing zero. -/
def constantBytes (text : String) : List UInt8 :=
  utf8Bytes text.toList ++ [0]

/-- The constant that holds a text: one that is there already, or a new one. -/
def intern (m : Module) (text : String) : Module × String :=
  let bytes := constantBytes text
  match m.constants.find? (·.bytes = bytes) with
  | some c => (m, c.name)
  | none =>
    let name := ".str" ++ Nat.repr m.constants.length
    ({ m with constants := m.constants ++ [⟨name, bytes⟩] }, name)

/-- How a name is called, if it names a function or a routine from outside. -/
def signature? (m : Module) (name : String) : Option Signature :=
  match m.functions.lookup name with
  | some f => some ⟨f.result, [], false⟩
  | none => m.externs.lookup name

end Module

end Code

end DeferLang
