import DeferLang.Proofs.Execution

/-!
# Running target code

A machine that runs the functions of a module.  It has 32-bit numbers, a frame for every
function that was called, and in every frame the values and stack slots of its function.
What it does not know how to do, such as to read a slot that nothing was stored in, to add
a truth value or to divide by zero, leaves it stuck.

`Code.Steps` counts steps, and collects the calls of routines from outside.  Since the
machine never has a choice, all runs from one place agree as far as they go.
-/

namespace DeferLang

namespace Code

/-- A value at run time. -/
inductive Word where
  | number (n : Int32)
  | bit (b : Bool)
  /-- The address of a constant of the module. -/
  | address (name : String)
deriving DecidableEq

def Word.type : Word → ValueType
  | .number _ => .i32
  | .bit _ => .i1
  | .address _ => .ptr

/-- What is passed for a value to a routine from outside; for an address, what is there. -/
def Module.datum? (m : Module) : Word → Option Datum
  | .number n => some (.number n.toInt)
  | .bit b => some (.truth b)
  | .address name => (m.constants.find? (·.name = name)).map fun c => .text c.bytes

namespace Operator

def onNumbers (op : Operator) (a b : Int32) : Option Word :=
  match op with
  | .add => some (.number (a + b))
  | .sub => some (.number (a - b))
  | .mul => some (.number (a * b))
  | .sdiv => if b = 0 ∨ (a = Int32.minValue ∧ b = -1) then none else some (.number (a / b))
  | .srem => if b = 0 ∨ (a = Int32.minValue ∧ b = -1) then none else some (.number (a % b))
  | .eq => some (.bit (a = b))
  | .ne => some (.bit (a ≠ b))
  | .slt => some (.bit (a < b))
  | .sgt => some (.bit (a > b))
  | .sle => some (.bit (a ≤ b))
  | .sge => some (.bit (a ≥ b))
  | .and => none

def onBits (op : Operator) (a b : Bool) : Option Word :=
  match op with
  | .eq => some (.bit (a = b))
  | .ne => some (.bit (a ≠ b))
  | .and => some (.bit (a && b))
  | _ => none

/-- The result of an operator, if it has one. -/
def apply (op : Operator) : Word → Word → Option Word
  | .number a, .number b => op.onNumbers a b
  | .bit a, .bit b => op.onBits a b
  | _, _ => none

end Operator

/-- A stack slot, and what was stored there last. -/
structure Cell where
  type : ValueType
  content : Option Word

/-- A function that is running. -/
structure Frame where
  function : Function
  /-- What is still to run of the block, and how the block ends. -/
  code : List Instr
  term : Terminator
  values : ValueId → Option Word
  cells : ValueId → Option Cell

namespace Frame

variable (F : Frame)

/-- What an operand holds. -/
def word? : Operand → Option Word
  | .value id => F.values id
  | .const32 n => some (.number n)
  | .const1 b => some (.bit b)
  | .address name => some (.address name)

/-- What an operand holds, if it is of a type. -/
def typed? (type : ValueType) (x : Operand) : Option Word :=
  (F.word? x).filter (·.type = type)

/-- What is stored in a slot for values of a type. -/
def content? (type : ValueType) (slot : ValueId) : Option Word :=
  (F.cells slot).bind fun cell => if cell.type = type then cell.content else none

def setValue (id : ValueId) (w : Word) : Frame :=
  { F with values := fun v => if v = id then some w else F.values v }

def setCell (slot : ValueId) (cell : Cell) : Frame :=
  { F with cells := fun v => if v = slot then some cell else F.cells v }

/-- At the start of another block. -/
def enter (b : BasicBlock) : Frame :=
  { F with code := b.instrs, term := b.term }

/-- Behind an instruction that is no call. -/
def after? (dest : Option ValueId) : Operation → Option Frame
  | .slot type => dest.map fun id => F.setCell id ⟨type, none⟩
  | .load type slot =>
    dest.bind fun id => (F.content? type slot).map fun w => F.setValue id w
  | .store type x slot =>
    (F.typed? type x).bind fun w => (F.cells slot).bind fun cell =>
      if cell.type = type then some (F.setCell slot ⟨type, some w⟩) else none
  | .binary op type left right =>
    dest.bind fun id => (F.typed? type left).bind fun a => (F.typed? type right).bind fun b =>
      (op.apply a b).map fun w => F.setValue id w
  | .widen x =>
    dest.bind fun id => (F.word? x).bind fun w =>
      match w with
      | .bit b => some (F.setValue id (.number (if b then 1 else 0)))
      | _ => none
  | .call _ _ _ => none

end Frame

/-- The functions that wait for the one that is running, each with the value that its result is
given to. -/
abbrev Callers := List (Option ValueId × Frame)

/-- The functions that are running: the last that was called, and those that wait for it, with
the value that its result is given to. -/
structure Config where
  frame : Frame
  callers : Callers

/-- What a step comes to. -/
inductive Next where
  | running (calls : List ExternalCall) (c : Config)
  | ended (e : Ending)

/-- The machine goes on, if there is a way. -/
def Next.ofFrame? (callers : Callers) : Option Frame → Next
  | some F => .running [] ⟨F, callers⟩
  | none => .ended .stuck

/-- A function at its start. -/
def Function.start? (f : Function) : Option Frame :=
  (f.block? f.entry).map fun b => ⟨f, b.instrs, b.term, fun _ => none, fun _ => none⟩

namespace Module

variable (m : Module)

/-- What is passed for arguments. -/
def data? (F : Frame) (args : CallArgs) : Option (List Datum) :=
  args.mapM fun arg => (F.typed? arg.1 arg.2).bind m.datum?

/-- Call a routine from outside.  Nothing is known about its result, so it must not be used. -/
def callRoutine (F : Frame) (callers : Callers) (dest : Option ValueId)
    (callee : String) (args : CallArgs) : Next :=
  match m.externs.lookup callee, dest, m.data? F args with
  | some _, none, some data => .running [⟨callee, data⟩] ⟨F, callers⟩
  | _, _, _ => .ended .stuck

/-- Call a function or a routine.  Functions have no parameters. -/
def call (F : Frame) (callers : Callers) (dest : Option ValueId)
    (callee : String) (result : ValueType) (args : CallArgs) : Next :=
  match m.functions.lookup callee with
  | some f =>
    if args = [] ∧ f.result = result then .ofFrame? ((dest, F) :: callers) f.start?
    else .ended .stuck
  | none => m.callRoutine F callers dest callee args

/-- Run an instruction. -/
def perform (F : Frame) (callers : Callers) (i : Instr) : Next :=
  match i.operation with
  | .call callee result args => m.call F callers i.dest callee result args
  | op => .ofFrame? callers (F.after? i.dest op)

end Module

/-- Give the result of a function to the function that waits for it. -/
def Frame.receive? (F : Frame) (dest : Option ValueId) (result : Option Word) : Option Frame :=
  match dest, result with
  | none, _ => some F
  | some id, some w => some (F.setValue id w)
  | some _, none => none

/-- Return to the function that waits, if there is one. -/
def returnTo (callers : Callers) (result : Option Word) : Next :=
  match callers with
  | [] => .ended .finished
  | (dest, F) :: rest => .ofFrame? rest (F.receive? dest result)

/-- Go on in another block of a function. -/
def Frame.jump? (F : Frame) (target : BlockId) : Option Frame :=
  (F.function.block? target).map F.enter

/-- Leave a block. -/
def Frame.leave (F : Frame) (callers : Callers) : Next :=
  match F.term with
  | .ret none => returnTo callers none
  | .ret (some (type, x)) =>
    match F.typed? type x with
    | some w => returnTo callers (some w)
    | none => .ended .stuck
  | .jump target => .ofFrame? callers (F.jump? target)
  | .branch cond thenTarget elseTarget =>
    match F.word? cond with
    | some (.bit b) => .ofFrame? callers (F.jump? (if b then thenTarget else elseTarget))
    | _ => .ended .stuck

namespace Module

variable (m : Module)

/-- One step: the next instruction, or the end of the block. -/
def step (c : Config) : Next :=
  match c.frame.code with
  | i :: rest => m.perform { c.frame with code := rest } c.callers i
  | [] => c.frame.leave c.callers

/-- Run a number of steps, unless the run ends before. -/
def exec (m : Module) : Nat → Config → Run
  | 0, _ => ⟨[], none⟩
  | n + 1, c =>
    match m.step c with
    | .running calls c' => (m.exec n c').after calls
    | .ended e => ⟨[], some e⟩

/-- Run a function by its name. -/
def run (n : Nat) (name : String) : Run :=
  match (m.functions.lookup name).bind Function.start? with
  | some F => m.exec n ⟨F, []⟩
  | none => ⟨[], some .stuck⟩

end Module

/-- The machine makes a number of steps, with these calls. -/
inductive Steps (m : Module) : Nat → List ExternalCall → Config → Config → Prop
  | refl (c : Config) : Steps m 0 [] c c
  | step {k : Nat} {calls trace : List ExternalCall} {c c₁ c' : Config} :
      m.step c = .running calls c₁ → Steps m k trace c₁ c' →
      Steps m (k + 1) (calls ++ trace) c c'

namespace Steps

variable {m : Module} {k : Nat} {trace : List ExternalCall} {c c' : Config}

/-- A step without a call. -/
theorem single (h : m.step c = .running [] c') : Steps m 1 [] c c' :=
  .step h (.refl c')

theorem trans {k' : Nat} {trace' : List ExternalCall} {c'' : Config} (h : Steps m k trace c c')
    (h' : Steps m k' trace' c' c'') : Steps m (k + k') (trace ++ trace') c c'' := by
  induction h with
  | refl c =>
    rw [Nat.zero_add]
    exact h'
  | step hstep _ ih =>
    rw [Nat.add_right_comm, List.append_assoc]
    exact .step hstep (ih h')

end Steps

namespace Module

variable {m : Module}

end Module

end Code

end DeferLang
