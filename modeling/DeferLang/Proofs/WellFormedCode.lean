import Mathlib.Data.List.Nodup
import DeferLang.Proofs.LoweredCode

/-!
# Lowered functions are well formed

A function of target code is well formed (`Code.Function.WellFormed`) if its blocks have
numbers of their own and lead to each other, its stack slots are made at its start, no
value is defined twice, and every operand has the type that its use demands and is
defined before in the same block.

Lowering keeps a function well formed while it is being made: what is open is the block
that is being filled, and the numbers of blocks that are still to come (`Lowering.Fits`).
-/

namespace DeferLang

open List

namespace Code

variable {code : List Instr} {s : Lowering} {x : Operand} {t : ValueType}

/-- The values of a piece of code, with their types. -/
abbrev Known := List (ValueId × ValueType)

section Rules

/-- Whether an instruction makes a stack slot. -/
def Instr.isSlot (i : Instr) : Bool :=
  match i.operation with
  | .slot _ => true
  | _ => false

/-- The stack slot that an instruction makes, with the type of what it holds. -/
def Instr.slot? (i : Instr) : Option (ValueId × ValueType) :=
  match i.dest, i.operation with
  | some id, .slot type => some (id, type)
  | _, _ => none

/-- The value that an instruction defines, with its type. -/
def Instr.defines? (i : Instr) : Option (ValueId × ValueType) :=
  match i.dest, i.operation.resultType? with
  | some id, some type => some (id, type)
  | _, _ => none

/-- An operand has a type. -/
def Operand.HasType (known : Known) (x : Operand) (type : ValueType) : Prop :=
  match x with
  | .value id => (id, type) ∈ known
  | .const32 _ => type = .i32
  | .const1 _ => type = .i1
  | .address _ => type = .ptr

/-- An operation works on operands of the types that it demands, and on slots for values of the
type it loads or stores.  It makes no slot. -/
def Operation.Typed (slots known : Known) : Operation → Prop
  | .slot _ => False
  | .load type place => (place, type) ∈ slots
  | .store type value place => value.HasType known type ∧ (place, type) ∈ slots
  | .binary op type left right =>
    op.Takes type ∧ left.HasType known type ∧ right.HasType known type
  | .widen value => value.HasType known .i1
  | .call _ _ args => ∀ arg ∈ args, arg.2.HasType known arg.1

/-- An instruction is typed, and defines a value only if its operation has one. -/
def Instr.Typed (slots known : Known) (i : Instr) : Prop :=
  i.operation.Typed slots known ∧
    (i.dest.isSome → ∃ type, i.operation.resultType? = some type ∧ type ≠ .void)

/-- Instructions are typed one after the other, each with the values that are defined before. -/
def TypedCode (slots : Known) : Known → List Instr → Prop
  | _, [] => True
  | known, i :: is => i.Typed slots known ∧ TypedCode slots (i.defines?.toList ++ known) is

/-- A terminator works on operands of the types that it demands. -/
def Terminator.Typed (known : Known) (result : ValueType) : Terminator → Prop
  | .ret none => result = .void
  | .ret (some (type, value)) => type = result ∧ value.HasType known type
  | .jump _ => True
  | .branch cond _ _ => cond.HasType known .i1

/-- The values that instructions define, the latest first. -/
def definedBy (code : List Instr) : Known :=
  (code.filterMap Instr.defines?).reverse

/-- The instructions of a block of a function, behind the slots at the start of the function. -/
def Function.bodyOf (f : Function) (b : BasicBlock) : List Instr :=
  if b.id = f.entry then b.instrs.dropWhile Instr.isSlot else b.instrs

/-- The slots that a function makes at its start. -/
def Function.slots (f : Function) : Known :=
  match f.block? f.entry with
  | some b => (b.instrs.takeWhile Instr.isSlot).filterMap Instr.slot?
  | none => []

/-- A function is well formed. -/
structure Function.WellFormed (f : Function) : Prop where
  blocks_nodup : (f.blocks.map BasicBlock.id).Nodup
  entry_mem : f.entry ∈ f.blocks.map BasicBlock.id
  /-- Branches lead to blocks of the function, but never back to its start. -/
  targets : ∀ b ∈ f.blocks, ∀ target ∈ b.term.targets,
    target ∈ f.blocks.map BasicBlock.id ∧ target ≠ f.entry
  /-- No value is defined twice. -/
  values_nodup : (f.instrs.filterMap Instr.dest).Nodup
  /-- Behind the slots at the start, all instructions are typed, and none makes a slot. -/
  typed : ∀ b ∈ f.blocks, TypedCode f.slots [] (f.bodyOf b) ∧
    b.term.Typed (definedBy (f.bodyOf b)) f.result

end Rules

section TypedCode

variable {i : Instr} {type : ValueType}

theorem Instr.defines?_eq_some {id : ValueId} :
    i.defines? = some (id, type) ↔ i.dest = some id ∧ i.operation.resultType? = some type := by
  unfold defines?
  cases i.dest with
  | none => simp
  | some dest => cases i.operation.resultType? <;> simp

theorem Instr.slot?_eq_some {id : ValueId} :
    i.slot? = some (id, type) ↔ i.dest = some id ∧ i.operation = .slot type := by
  unfold slot?
  cases i.dest with
  | none => simp
  | some dest => cases i.operation <;> simp

theorem Instr.isSlot_eq_true : i.isSlot = true ↔ ∃ type, i.operation = .slot type := by
  unfold isSlot
  cases i.operation <;> simp

variable {slots slots' known : Known}

theorem Operand.HasType.mono {known' : Known} (h : x.HasType known type)
    (hsub : known ⊆ known') : x.HasType known' type := by
  cases x with
  | value id => exact hsub h
  | _ => exact h

theorem Operation.Typed.mono {op : Operation} (h : op.Typed slots known) (hsub : slots ⊆ slots') :
    op.Typed slots' known := by
  cases op with
  | load type place => exact hsub h
  | store type value place => exact ⟨h.1, hsub h.2⟩
  | _ => exact h

/-- Further slots may be made. -/
theorem TypedCode.mono (h : TypedCode slots known code)
    (hsub : slots ⊆ slots') : TypedCode slots' known code := by
  induction code generalizing known with
  | nil => trivial
  | cons i is ih => exact ⟨⟨h.1.1.mono hsub, h.1.2⟩, ih h.2⟩

theorem definedBy_append (xs ys : List Instr) :
    definedBy (xs ++ ys) = definedBy ys ++ definedBy xs := by
  rw [definedBy, filterMap_append, reverse_append]
  rfl

theorem typedCode_append {xs ys : List Instr} : TypedCode slots known (xs ++ ys) ↔
    TypedCode slots known xs ∧ TypedCode slots (definedBy xs ++ known) ys := by
  induction xs generalizing known with
  | nil => exact (and_iff_right trivial).symm
  | cons i is ih =>
    have hdefined : definedBy (i :: is) ++ known =
        definedBy is ++ (i.defines?.toList ++ known) := by
      rw [← singleton_append, definedBy_append, append_assoc]
      congr 2
      cases hi : i.defines? <;> simp [definedBy, hi]
    rw [cons_append, TypedCode, ih, TypedCode, hdefined, and_assoc]

/-- What is typed makes no slot. -/
theorem TypedCode.not_isSlot (h : TypedCode slots known code) :
    ∀ i ∈ code, i.isSlot = false := by
  induction code generalizing known with
  | nil => exact fun _ hi => by contradiction
  | cons i is ih =>
    refine forall_mem_cons.2 ⟨?_, ih h.2⟩
    unfold Instr.isSlot
    split
    · rename_i hslot
      have hoperation := h.1.1
      rw [hslot] at hoperation
      exact hoperation.elim
    · rfl

end TypedCode

/-- Numbers that are all different and smaller than the next. -/
structure Numbered (ids : List Nat) (next : Nat) : Prop where
  nodup : ids.Nodup
  lt : ∀ id ∈ ids, id < next

/-- Further numbers are taken in order. -/
theorem Numbered.extend {ids ids' : List Nat} {next count : Nat} (h : Numbered ids next)
    (hperm : ids'.Perm (List.range' next count ++ ids)) : Numbered ids' (next + count) := by
  refine ⟨hperm.nodup_iff.2 (nodup_append'.2 ⟨nodup_range', h.nodup, ?_⟩), ?_⟩
  · intro id hnew hold
    have hle := (mem_range'_1.1 hnew).1
    exact Nat.not_lt.2 hle (h.lt id hold)
  · intro id hid
    rcases mem_append.1 (hperm.mem_iff.1 hid) with hnew | hold
    · exact (mem_range'_1.1 hnew).2
    · exact Nat.lt_of_lt_of_le (h.lt id hold) (Nat.le_add_right _ _)

namespace Lowering

/-- The slots that were made. -/
def made (s : Lowering) : Known :=
  s.slotInstrs.filterMap Instr.slot?

/-- The values that were defined. -/
def dests (s : Lowering) : List ValueId :=
  (s.slotInstrs ++ s.body).filterMap Instr.dest

/-- The numbers of all blocks: the one that is being filled, those to come, and those that were
closed. -/
def ids (s : Lowering) (pending : List BlockId) : List BlockId :=
  s.current :: (pending ++ s.blocks.map BasicBlock.id)

/-- The function that is being made is well formed so far, if the blocks `pending` are still to
come. -/
structure Fits (s : Lowering) (pending : List BlockId) : Prop where
  numbered : Numbered (s.ids pending) s.nextBlock
  entry_mem : entryBlock ∈ s.current :: s.blocks.map BasicBlock.id
  targets : ∀ b ∈ s.blocks, ∀ target ∈ b.term.targets,
    target ∈ s.ids pending ∧ target ≠ entryBlock
  values : Numbered s.dests s.nextValue
  slotInstrs : ∀ i ∈ s.slotInstrs, ∃ id type, i.slot? = some (id, type)
  slots : ∀ entry ∈ s.slots, entry.2 ∈ s.made ∧ entry.2.2 ≠ .void
  code : TypedCode s.made [] s.instrs.reverse
  blocks : ∀ b ∈ s.blocks, TypedCode s.made [] b.instrs ∧
    b.term.Typed (definedBy b.instrs) s.result
  result : ∀ known, (Lower.returnTerm s.result).Typed known s.result

namespace Fits

variable {s : Lowering} {pending : List BlockId} {next : Nat}

theorem isSlot (h : s.Fits pending) : ∀ i ∈ s.slotInstrs, i.isSlot = true := by
  intro i hi
  obtain ⟨id, type, hslot⟩ := h.slotInstrs i hi
  exact Instr.isSlot_eq_true.2 ⟨type, (Instr.slot?_eq_some.1 hslot).2⟩

theorem inModule (h : s.Fits pending) (m : Module) : (s.inModule m).Fits pending :=
  ⟨h.numbered, h.entry_mem, h.targets, h.values, h.slotInstrs, h.slots, h.code, h.blocks, h.result⟩

/-- Instructions that define the next values may follow. -/
theorem computed (h : s.Fits pending) (htyped : TypedCode s.made (definedBy s.instrs.reverse) code)
    (hdests : code.filterMap Instr.dest = List.range' s.nextValue code.length) :
    (s.computed code).Fits pending := by
  refine ⟨h.numbered, h.entry_mem, h.targets, ?_, h.slotInstrs, h.slots, ?_, h.blocks, h.result⟩
  · refine h.values.extend ?_
    change ((s.slotInstrs ++ ((code.reverse ++ s.instrs) ++ _)).filterMap Instr.dest).Perm _
    rw [← hdests, dests, ← filterMap_append, append_assoc]
    refine List.Perm.filterMap _ ((perm_append_comm_assoc _ _ _).trans ?_)
    exact (reverse_perm _).append_right _
  · change TypedCode s.made [] (code.reverse ++ s.instrs).reverse
    rw [reverse_append, reverse_reverse, typedCode_append, append_nil]
    exact ⟨h.code, htyped⟩

/-- An instruction without result may follow. -/
theorem emitted (h : s.Fits pending) (span : Span) {operation : Operation}
    (htyped : operation.Typed s.made (definedBy s.instrs.reverse)) :
    (s.emitted span operation).Fits pending := by
  have hdests : (s.emitted span operation).dests = s.dests := by
    change (s.slotInstrs ++ _ :: s.body).filterMap Instr.dest = _
    rw [filterMap_append, filterMap_cons_none rfl, ← filterMap_append, dests]
  refine ⟨h.numbered, h.entry_mem, h.targets, hdests ▸ h.values, h.slotInstrs, h.slots, ?_,
    h.blocks, h.result⟩
  change TypedCode s.made [] (_ :: s.instrs).reverse
  rw [reverse_cons, typedCode_append, append_nil]
  exact ⟨h.code, ⟨htyped, fun hdest => by contradiction⟩, trivial⟩

/-- A slot may be made at any time. -/
theorem withSlot (h : s.Fits pending) (var : SymbolId) (ht : t ≠ .void)
    (span : Span) : (s.withSlot var t span).Fits pending := by
  have hmade : (s.withSlot var t span).made = (s.nextValue, t) :: s.made := rfl
  have hsub : s.made ⊆ (s.withSlot var t span).made := by
    rw [hmade]
    exact subset_cons_self _ _
  refine ⟨h.numbered, h.entry_mem, h.targets, ?_, ?_, ?_, h.code.mono hsub, ?_, h.result⟩
  · exact h.values.extend (List.Perm.refl _)
  · exact forall_mem_cons.2 ⟨⟨_, _, rfl⟩, h.slotInstrs⟩
  · refine forall_mem_cons.2 ⟨⟨mem_cons_self, ht⟩, fun entry hentry => ?_⟩
    exact ⟨hsub (h.slots entry hentry).1, (h.slots entry hentry).2⟩
  · exact fun b hb => ⟨(h.blocks b hb).1.mono hsub, (h.blocks b hb).2⟩

/-- The block that is being filled may be closed, with `count` new numbers for blocks, and with a
block that was to come as the next one. -/
theorem closed (h : s.Fits pending) (count : Nat) {pending' : List BlockId} {term : Terminator}
    (hperm : (next :: pending').Perm (List.range' s.nextBlock count ++ pending))
    (hterm : term.Typed (definedBy s.instrs.reverse) s.result) (htargets : ∀ target ∈ term.targets,
      target ∈ ((s.reserved count).closed term next).ids pending' ∧ target ≠ entryBlock) :
    ((s.reserved count).closed term next).Fits pending' := by
  have hids : (((s.reserved count).closed term next).ids pending').Perm
      (List.range' s.nextBlock count ++ s.ids pending) := by
    change (next :: (pending' ++ s.current :: s.blocks.map BasicBlock.id)).Perm _
    rw [← cons_append]
    refine (hperm.append_right _).trans ?_
    rw [append_assoc, ids]
    exact List.Perm.append_left _ perm_middle
  -- the instructions go from the open block to the closed ones
  have hdests : ((s.reserved count).closed term next).dests.Perm
      (List.range' s.nextValue 0 ++ s.dests) := by
    refine List.Perm.filterMap _ (List.Perm.append_left _ ?_)
    exact (reverse_perm s.instrs).append_right _
  refine ⟨h.numbered.extend hids, ?_, ?_, h.values.extend hdests, h.slotInstrs, h.slots, trivial,
    ?_, h.result⟩
  · exact mem_cons_of_mem _ h.entry_mem
  · refine forall_mem_cons.2 ⟨htargets, fun b hb target htarget => ?_⟩
    obtain ⟨hmem, hne⟩ := h.targets b hb target htarget
    exact ⟨hids.mem_iff.2 (mem_append_right _ hmem), hne⟩
  · exact forall_mem_cons.2 ⟨⟨h.code, hterm⟩, h.blocks⟩

/-- The block that is being filled may be closed with a jump. -/
theorem jumped (h : s.Fits pending) (count : Nat) (pending' : List BlockId) {target : Nat}
    (hperm : (next :: pending').Perm (List.range' s.nextBlock count ++ pending))
    (htarget : target ∈ ((s.reserved count).closed (.jump target) next).ids pending')
    (hne : target ≠ entryBlock) : ((s.reserved count).closed (.jump target) next).Fits pending' :=
  h.closed count hperm trivial (forall_mem_singleton.2 ⟨htarget, hne⟩)

/-- The block that is being filled may be closed with a branch to the next block, or to the first
of those to come then. -/
theorem branched (h : s.Fits pending) (count : Nat) (pending' : List BlockId) {other : Nat}
    (hperm : (next :: other :: pending').Perm (List.range' s.nextBlock count ++ pending))
    (hx : x.HasType (definedBy s.instrs.reverse) .i1) (hnext : next ≠ entryBlock)
    (hother : other ≠ entryBlock) :
    ((s.reserved count).closed (.branch x next other) next).Fits (other :: pending') :=
  h.closed count hperm hx (forall_mem_cons.2 ⟨⟨mem_cons_self, hnext⟩,
    forall_mem_singleton.2 ⟨mem_cons_of_mem _ mem_cons_self, hother⟩⟩)

end Fits

end Lowering

section Steps

variable {ctx : Context} {printSymbol : String} {scope : List SymbolId} {type : ValueType}

theorem Operator.Takes.ne_void {op : Operator} (h : op.Takes type) : type ≠ .void := by
  rintro rfl
  cases op <;> simp [Operator.Takes] at h

theorem Operator.Takes.result_ne_void {op : Operator} (h : op.Takes type) :
    op.result type ≠ .void := by
  unfold Operator.result
  split
  · exact ValueType.noConfusion
  · exact h.ne_void

/-- The instructions for an expression are typed, and define the next values in order. -/
theorem Computes.typed {table : Slots} {slots : Known} {first : ValueId} {e : Expr}
    (h : Computes ctx scope table first e code x type)
    (htable : ∀ entry ∈ table, entry.2 ∈ slots ∧ entry.2.2 ≠ .void) (known : Known) :
    TypedCode slots known code ∧ x.HasType (definedBy code ++ known) type ∧
      code.filterMap Instr.dest = List.range' first code.length := by
  induction h generalizing known with
  | int _ | bool => exact ⟨trivial, rfl, rfl⟩
  | var _ _ hslot =>
    obtain ⟨front, back, hentries, -⟩ := lookup_eq_some_iff.1 hslot
    obtain ⟨hmem, hvoid⟩ := htable _ (hentries ▸ mem_append_right front mem_cons_self)
    exact ⟨⟨⟨hmem, fun _ => ⟨_, rfl, hvoid⟩⟩, trivial⟩, mem_cons_self, rfl⟩
  | @binary first id span opSpan op left right leftCode rightCode l r type _ _ htakes hl hr =>
    obtain ⟨hlcode, hlx, hldests⟩ := hl known
    obtain ⟨hrcode, hrx, hrdests⟩ := hr (definedBy leftCode ++ known)
    refine ⟨?_, ?_, ?_⟩
    · rw [typedCode_append, typedCode_append]
      refine ⟨hlcode, hrcode, ⟨⟨htakes, ?_, hrx⟩, fun _ => ⟨_, rfl, htakes.result_ne_void⟩⟩,
        trivial⟩
      exact hlx.mono (subset_append_right _ _)
    · rw [definedBy_append, definedBy_append]
      exact mem_append_left _ (mem_append_left _ (mem_append_left _
        mem_cons_self))
    · rw [filterMap_append, filterMap_append, hldests, hrdests, length_append,
        length_append, ← List.range'_append_1, ← List.range'_append_1]
      rfl

namespace Lowering.Fits

variable {s s' : Lowering} {pending : List BlockId}

/-- The instructions for an expression may follow, and its operand has its type then. -/
theorem computes (h : s.Fits pending) {e : Expr}
    {type : ValueType} (hcode : Computes ctx scope s.slots s.nextValue e code x type) :
    (s.computed code).Fits pending ∧
      x.HasType (definedBy (s.computed code).instrs.reverse) type := by
  obtain ⟨htyped, hx, hdests⟩ := hcode.typed h.slots (definedBy s.instrs.reverse)
  refine ⟨h.computed htyped hdests, ?_⟩
  change x.HasType (definedBy (code.reverse ++ s.instrs).reverse) type
  rwa [reverse_append, reverse_reverse, definedBy_append]

theorem prints (h : s.Fits pending) {arg : Expr}
    (hcode : Prints ctx scope s.slots s.nextValue arg code x) :
    (s.computed code).Fits pending ∧
      x.HasType (definedBy (s.computed code).instrs.reverse) .i32 := by
  cases hcode with
  | number hcode => exact h.computes hcode
  | @truth code x hcode =>
    obtain ⟨hfits, hx⟩ := h.computes hcode
    rw [← Lowering.computed_append]
    refine ⟨hfits.computed ⟨⟨hx, fun _ => ⟨_, rfl, ValueType.noConfusion⟩⟩, trivial⟩ rfl, ?_⟩
    change (s.nextValue + code.length, .i32) ∈
      definedBy (_ :: (s.computed code).instrs).reverse
    rw [reverse_cons, definedBy_append]
    exact mem_append_left _ mem_cons_self

/-- The instructions for arguments may follow, and all operands have their types then. -/
theorem args {es : List Expr} {args : CallArgs}
    (hargs : LowersArgs ctx scope s es s' args) (h : s.Fits pending) :
    s'.Fits pending ∧ definedBy s.instrs.reverse ⊆ definedBy s'.instrs.reverse ∧
      ∀ arg ∈ args, arg.2.HasType (definedBy s'.instrs.reverse) arg.1 := by
  induction hargs with
  | nil => exact ⟨h, List.Subset.refl _, fun _ harg => by contradiction⟩
  | text _ ih =>
    obtain ⟨hfits, hsub, hrest⟩ := ih (h.inModule _)
    exact ⟨hfits, hsub, forall_mem_cons.2 ⟨rfl, hrest⟩⟩
  | @value s s' arg args code x type rest hcode _ ih =>
    obtain ⟨hfirst, hx⟩ := h.computes hcode
    obtain ⟨hfits, hsub, hrest⟩ := ih hfirst
    refine ⟨hfits, List.Subset.trans ?_ hsub,
      forall_mem_cons.2 ⟨hx.mono hsub, hrest⟩⟩
    change _ ⊆ definedBy (code.reverse ++ s.instrs).reverse
    rw [reverse_append, reverse_reverse, definedBy_append]
    exact subset_append_right _ _

/-- A call may follow. -/
theorem call {c : Call} (hcall : LowersCall ctx printSymbol scope s c s') (h : s.Fits pending) :
    s'.Fits pending := by
  cases hcall with
  | printText _ _ =>
    exact (h.inModule _).emitted _ (forall_mem_singleton.2 rfl)
  | printNumber _ _ hcode =>
    obtain ⟨hfits, hx⟩ := h.prints hcode
    exact (hfits.inModule _).emitted _
      (forall_mem_cons.2 ⟨rfl, forall_mem_singleton.2 hx⟩)
  | function _ _ _ _ => exact h.emitted _ fun _ harg => by contradiction
  | main _ _ _ _ =>
    refine h.computed ⟨⟨fun _ harg => by contradiction, fun _ => ?_⟩, trivial⟩ rfl
    exact ⟨_, rfl, ValueType.noConfusion⟩
  | routine _ _ hargs _ =>
    obtain ⟨hfits, -, hargs⟩ := args hargs h
    exact (hfits.inModule _).emitted _ hargs

/-- A slot of a symbol is one that was made. -/
theorem mem_made (h : s.Fits pending) {symbol : SymbolId} {slot : ValueId} {type : ValueType}
    (hslot : s.slots.lookup symbol = some (slot, type)) : (slot, type) ∈ s.made := by
  obtain ⟨front, back, hentries, -⟩ := lookup_eq_some_iff.1 hslot
  exact (h.slots _ (hentries ▸ mem_append_right front mem_cons_self)).1

theorem nextBlock_pos (h : s.Fits pending) : 0 < s.nextBlock := by
  refine h.numbered.lt entryBlock ?_
  rcases mem_cons.1 h.entry_mem with hcurrent | hclosed
  · exact hcurrent ▸ mem_cons_self
  · exact mem_cons_of_mem _ (mem_append_right _ hclosed)

end Lowering.Fits

theorem zero_hasType {type : Ty} (h : valueType? type = some t) (known : Known) :
    (zero t).HasType known t := by
  rcases valueType?_eq_some.1 h with ⟨-, rfl⟩ | ⟨-, rfl⟩
  · rfl
  · rfl

theorem ne_void_of_valueType? {type : Ty} (h : valueType? type = some t) :
    t ≠ .void := by
  rcases valueType?_eq_some.1 h with ⟨-, rfl⟩ | ⟨-, rfl⟩
  · exact ValueType.noConfusion
  · exact ValueType.noConfusion

theorem Lowering.Grows.made_subset {s' : Lowering} (h : s.Grows s') : s.made ⊆ s'.made :=
  (h.slotInstrs.sublist.filterMap _).subset

mutual

/-- A statement may follow. -/
theorem LowersStmt.fits (st : Stmt) {scope scope' : List SymbolId} {s s' : Lowering}
    {pending : List BlockId} (h : LowersStmt ctx printSymbol scope s st s' scope')
    (hfits : s.Fits pending) : s'.Fits pending := by
  have hpos : s.nextBlock ≠ entryBlock := Nat.ne_of_gt hfits.nextBlock_pos
  match st, h with
  | .varDecl d, .declareZero _ _ _ _ htype =>
    refine (hfits.withSlot _ (ne_void_of_valueType? htype) d.span).emitted _ ?_
    exact ⟨zero_hasType htype _, mem_cons_self⟩
  | .varDecl d, .declareInit _ _ _ _ htype hcode =>
    obtain ⟨hinit, hx⟩ :=
      (hfits.withSlot _ (ne_void_of_valueType? htype) d.span).computes hcode
    exact hinit.emitted _ ⟨hx, mem_cons_self⟩
  | .assign _ _ _, .assign _ _ hslot hcode =>
    obtain ⟨hvalue, hx⟩ := hfits.computes hcode
    exact hvalue.emitted _ ⟨hx, hfits.mem_made hslot⟩
  | .call _ _, .call hcall => exact hfits.call hcall
  | .block body, .block hbody => exact LowersBlock.fits body hbody hfits
  | .ifElse _ _ thenBody none, .ifThen hcode hthen =>
    obtain ⟨hcond, hx⟩ := hfits.computes hcode
    have hbranch := hcond.branched 2 pending (List.Perm.refl _) hx hpos (Nat.succ_ne_zero _)
    exact (LowersBlock.fits thenBody hthen hbranch).jumped 0 pending (List.Perm.refl _)
      mem_cons_self (Nat.succ_ne_zero _)
  | .ifElse _ _ thenBody (some elseBody), .ifElse hcode hthen helse =>
    obtain ⟨hcond, hx⟩ := hfits.computes hcode
    have hbranch := hcond.branched 3 ((s.nextBlock + 2) :: pending) (List.Perm.refl _) hx hpos
      (Nat.succ_ne_zero _)
    have hjump := (LowersBlock.fits thenBody hthen hbranch).jumped 0
      ((s.nextBlock + 2) :: pending) (List.Perm.refl _)
      (mem_cons_of_mem _ mem_cons_self) (Nat.succ_ne_zero _)
    exact (LowersBlock.fits elseBody helse hjump).jumped 0 pending (List.Perm.refl _)
      mem_cons_self (Nat.succ_ne_zero _)
  | .whileLoop _ _ body, .whileLoop hcode hbody =>
    have hjump := hfits.jumped 3 ((s.nextBlock + 1) :: (s.nextBlock + 2) :: pending)
      (List.Perm.refl _) mem_cons_self hpos
    obtain ⟨hcond, hx⟩ := hjump.computes hcode
    have hbranch := hcond.branched 0 pending (List.Perm.refl _) hx (Nat.succ_ne_zero _)
      (Nat.succ_ne_zero _)
    -- the block of the condition is closed before the body, and stays
    have hheader := (LowersBlock.grows body hbody).blocks.subset mem_cons_self
    refine (LowersBlock.fits body hbody hbranch).jumped 0 pending (List.Perm.refl _)
      (mem_cons_of_mem _ (mem_append_right _ ?_)) hpos
    exact mem_cons_of_mem _ (mem_map_of_mem hheader)
  | .forIn _ _ _ _ body, .forIn _ _ _ _ hcopies =>
    have hall := hcopies.keeps
      (R := fun t t' => t.Fits pending → (s.nextValue, ValueType.i32) ∈ t.made →
        t'.Fits pending ∧ (s.nextValue, ValueType.i32) ∈ t'.made)
      (fun _ ht hmade => ⟨ht, hmade⟩)
      (fun _ _ _ h h' ht hmade => h' (h ht hmade).1 (h ht hmade).2)
      (fun t i t' inner hbody ht hmade =>
        ⟨LowersBlock.fits body hbody (ht.emitted _ ⟨rfl, hmade⟩),
          (LowersBlock.grows body hbody).made_subset hmade⟩)
    exact (hall (hfits.withSlot _ ValueType.noConfusion _) mem_cons_self).1
  | .ret _ _, .ret =>
    exact hfits.closed 1 (List.Perm.refl _) (hfits.result _) fun _ htarget => by contradiction
  | .defer _ _, .defer => exact hfits
  | .cleanup _, .deferred _ hcall => exact hfits.call hcall
  | .cleanup _, .cleanup _ => exact hfits

theorem LowersBlock.fits (b : BlockOf Stmt) {scope scope' : List SymbolId} {s s' : Lowering}
    {pending : List BlockId} (h : LowersBlock ctx printSymbol scope s b s' scope')
    (hfits : s.Fits pending) : s'.Fits pending := by
  match b, h with
  | ⟨_, _, stmts⟩, .mk hstmts => exact LowersStmts.fits stmts hstmts hfits

theorem LowersStmts.fits (ss : List Stmt) {scope scope' : List SymbolId} {s s' : Lowering}
    {pending : List BlockId} (h : LowersStmts ctx printSymbol scope s ss s' scope')
    (hfits : s.Fits pending) : s'.Fits pending := by
  match ss, h with
  | [], .nil => exact hfits
  | st :: ss, .cons hst hss => exact LowersStmts.fits ss hss (LowersStmt.fits st hst hfits)

end

theorem Lowering.fits_start (m : Module) (name : String) : (Lowering.start m name).Fits [] := by
  refine ⟨⟨nodup_singleton _, ?_⟩, mem_cons_self, ?_, ⟨nodup_nil, ?_⟩, ?_, ?_,
    trivial, ?_, fun known => ?_⟩
  · exact forall_mem_singleton.2 Nat.zero_lt_one
  · exact fun _ hb => by contradiction
  · exact fun _ hid => by contradiction
  · exact fun _ hi => by contradiction
  · exact fun _ hentry => by contradiction
  · exact fun _ hb => by contradiction
  · change (Lower.returnTerm (resultType name)).Typed known (resultType name)
    unfold resultType
    split
    · exact ⟨rfl, rfl⟩
    · rfl

/-- Behind the last block, no closed block leads to the open one, and the entry is closed. -/
theorem Lowering.Fits.finished (h : s.Fits []) : s.finished.Fits [] ∧
    s.finished.current ≠ entryBlock ∧
      ∀ b ∈ s.finished.blocks, s.finished.current ∉ b.term.targets := by
  unfold Lowering.finished
  split
  · have hclosed := h.closed 1 (List.Perm.refl _) (h.result _)
      fun _ htarget => by contradiction
    refine ⟨hclosed, Nat.ne_of_gt h.nextBlock_pos, ?_⟩
    refine forall_mem_cons.2 ⟨not_mem_nil, fun b hb htarget => ?_⟩
    exact Nat.lt_irrefl _ (h.numbered.lt _ (h.targets b hb _ htarget).1)
  · rename_i hdropped
    refine ⟨h, fun hcurrent => hdropped (.inl (.inl hcurrent)), fun b hb htarget => ?_⟩
    refine hdropped (.inl (.inr (any_eq_true.2 ⟨b, hb, ?_⟩)))
    exact decide_eq_true htarget

end Steps

section Finish

/-- Slots go in front of the block with the number of the entry. -/
def withSlotsAt (slots : List Instr) (b : BasicBlock) : BasicBlock :=
  if b.id = entryBlock then { b with instrs := slots ++ b.instrs } else b

theorem withSlots_eq_map (slots : List Instr) {blocks : List BasicBlock}
    (hnodup : (blocks.map BasicBlock.id).Nodup) :
    Lower.withSlots slots blocks = blocks.map (withSlotsAt slots) := by
  induction blocks with
  | nil => rfl
  | cons b rest ih =>
    obtain ⟨hb, hrest⟩ := nodup_cons.1 hnodup
    rw [Lower.withSlots, map_cons, withSlotsAt]
    split
    · rename_i hentry
      have hothers : rest.map (withSlotsAt slots) = rest.map id := by
        refine map_congr_left fun b' hb' => if_neg fun hentry' => hb ?_
        rw [hentry, ← hentry']
        exact mem_map_of_mem hb'
      rw [hothers, map_id]
    · rw [ih hrest]

theorem id_withSlotsAt (slots : List Instr) (b : BasicBlock) : (withSlotsAt slots b).id = b.id := by
  unfold withSlotsAt
  split
  · rfl
  · rfl

theorem term_withSlotsAt (slots : List Instr) (b : BasicBlock) :
    (withSlotsAt slots b).term = b.term := by
  unfold withSlotsAt
  split
  · rfl
  · rfl

/-- Slots are put in front once. -/
theorem flatMap_withSlots_perm (slots : List Instr) {blocks : List BasicBlock}
    (hentry : entryBlock ∈ blocks.map BasicBlock.id) :
    ((Lower.withSlots slots blocks).flatMap BasicBlock.instrs).Perm
      (slots ++ blocks.flatMap BasicBlock.instrs) := by
  induction blocks with
  | nil => contradiction
  | cons b rest ih =>
    rw [Lower.withSlots]
    split
    · rw [flatMap_cons, flatMap_cons, append_assoc]
    · rename_i hb
      have hrest := (mem_cons.1 hentry).resolve_left fun h => hb h.symm
      rw [flatMap_cons, flatMap_cons]
      refine ((ih hrest).append_left _).trans ?_
      exact perm_append_comm_assoc _ _ _

/-- Among keys that are all different, each is found where it is. -/
theorem find?_key {α κ : Type} [DecidableEq κ] (key : α → κ) {xs : List α}
    (hnodup : (xs.map key).Nodup) {x : α} (hx : x ∈ xs) :
    xs.find? (fun y => key y = key x) = some x := by
  induction xs with
  | nil => contradiction
  | cons y rest ih =>
    obtain ⟨hy, hrest⟩ := nodup_cons.1 hnodup
    rcases mem_cons.1 hx with rfl | hmem
    · exact List.find?_cons_of_pos (decide_eq_true rfl)
    · have hne : key y ≠ key x := fun h => hy (h ▸ mem_map_of_mem hmem)
      rw [List.find?_cons_of_neg (by simpa using hne)]
      exact ih hrest hmem

theorem takeWhile_isSlot_append {slots body : List Instr} (hslots : ∀ i ∈ slots, i.isSlot = true)
    (hbody : ∀ i ∈ body, i.isSlot = false) :
    (slots ++ body).takeWhile Instr.isSlot = slots ∧
      (slots ++ body).dropWhile Instr.isSlot = body := by
  rw [takeWhile_append_of_pos hslots, dropWhile_append_of_pos hslots]
  cases body with
  | nil => exact ⟨append_nil _, rfl⟩
  | cons i is =>
    have hi : ¬ i.isSlot = true := by simp [hbody i mem_cons_self]
    rw [takeWhile_cons_of_neg hi, dropWhile_cons_of_neg hi, append_nil]
    exact ⟨rfl, rfl⟩

namespace Lowering.Fits

variable {s : Lowering} {pending : List BlockId} (h : s.Fits pending)
include h

theorem nodup_ids : (s.blocks.map BasicBlock.id).Nodup :=
  (nodup_append'.1 (nodup_cons.1 h.numbered.nodup).2).2.1

/-- The blocks of the function are those that were closed. -/
theorem blocks_code (f : DeferLang.Function) :
    (s.code f).blocks = s.blocks.reverse.map (withSlotsAt s.slotInstrs.reverse) := by
  refine withSlots_eq_map _ ?_
  rw [map_reverse]
  exact nodup_reverse.2 h.nodup_ids

theorem ids_code (f : DeferLang.Function) :
    (s.code f).blocks.map BasicBlock.id = (s.blocks.map BasicBlock.id).reverse := by
  rw [h.blocks_code, map_map, map_reverse]
  exact congrArg List.reverse (map_congr_left fun b _ => id_withSlotsAt _ b)

/-- Behind its slots, a block of the function has the instructions that it was closed with. -/
theorem bodyOf_code (f : DeferLang.Function) {b : BasicBlock} (hb : b ∈ s.blocks) :
    (s.code f).bodyOf (withSlotsAt s.slotInstrs.reverse b) = b.instrs := by
  unfold Function.bodyOf withSlotsAt
  by_cases hentry : b.id = entryBlock
  · rw [if_pos hentry]
    refine (if_pos hentry).trans (takeWhile_isSlot_append ?_ (h.blocks b hb).1.not_isSlot).2
    exact fun i hi => h.isSlot i (mem_reverse.1 hi)
  · rw [if_neg hentry]
    exact if_neg hentry

theorem slots_code (f : DeferLang.Function) (hcurrent : s.current ≠ entryBlock) :
    (s.code f).slots = s.made.reverse := by
  obtain ⟨b, hb, hid⟩ := mem_map.1
    ((mem_cons.1 h.entry_mem).resolve_left fun heq => hcurrent heq.symm)
  have hnodup : ((s.code f).blocks.map BasicBlock.id).Nodup := by
    rw [h.ids_code]
    exact nodup_reverse.2 h.nodup_ids
  have hmem : withSlotsAt s.slotInstrs.reverse b ∈ (s.code f).blocks := by
    rw [h.blocks_code]
    exact mem_map_of_mem (mem_reverse.2 hb)
  have hfind : (s.code f).block? (s.code f).entry =
      some { b with instrs := s.slotInstrs.reverse ++ b.instrs } := by
    have hfound := find?_key BasicBlock.id hnodup hmem
    rw [id_withSlotsAt, hid, withSlotsAt, if_pos hid] at hfound
    exact hfound
  have hslots := (takeWhile_isSlot_append
    (fun i hi => h.isSlot i (mem_reverse.1 hi)) (h.blocks b hb).1.not_isSlot).1
  rw [Function.slots, hfind, made, ← filterMap_reverse]
  exact congrArg _ hslots

end Lowering.Fits

theorem Lowering.slotInstrs_finished (s : Lowering) : s.finished.slotInstrs = s.slotInstrs := by
  unfold Lowering.finished
  split
  · rfl
  · rfl

/-- All instructions are in closed blocks at the end. -/
theorem Lowering.flatMap_finished_perm (s : Lowering) :
    (s.finished.blocks.flatMap BasicBlock.instrs).Perm s.body := by
  unfold Lowering.finished
  split
  · exact (reverse_perm s.instrs).append_right _
  · rename_i hdropped
    have hnone : s.instrs = [] := by
      by_contra hsome
      exact hdropped (.inr hsome)
    rw [Lowering.body, hnone, nil_append]

/-- The function has the instructions that were made. -/
theorem Lowering.Fits.perm_instrs_code (h : s.Fits []) (f : DeferLang.Function) :
    (s.finished.code f).instrs.Perm (s.slotInstrs ++ s.body) := by
  obtain ⟨hfits, hcurrent, -⟩ := h.finished
  have hentry := (mem_cons.1 hfits.entry_mem).resolve_left fun heq => hcurrent heq.symm
  refine (flatMap_withSlots_perm _ ?_).trans ?_
  · rw [map_reverse]
    exact mem_reverse.2 hentry
  · rw [s.slotInstrs_finished]
    refine (reverse_perm _).append (List.Perm.trans ?_ s.flatMap_finished_perm)
    exact (reverse_perm _).flatMap_right _

/-- The function that was made is well formed. -/
theorem Lowering.Fits.wellFormed (h : s.Fits []) (f : DeferLang.Function) :
    (s.finished.code f).WellFormed := by
  obtain ⟨hfits, hcurrent, hunreached⟩ := h.finished
  have hids := hfits.ids_code f
  have hclosed : entryBlock ∈ s.finished.blocks.map BasicBlock.id :=
    (mem_cons.1 hfits.entry_mem).resolve_left fun heq => hcurrent heq.symm
  have hmade : s.finished.made ⊆ (s.finished.code f).slots := by
    rw [hfits.slots_code f hcurrent]
    exact fun _ hslot => mem_reverse.2 hslot
  -- every block of the function is one that was closed
  have hblocks : ∀ b ∈ (s.finished.code f).blocks, ∃ b' ∈ s.finished.blocks,
      withSlotsAt s.finished.slotInstrs.reverse b' = b := by
    intro b hb
    rw [hfits.blocks_code] at hb
    obtain ⟨b', hb', heq⟩ := mem_map.1 hb
    exact ⟨b', mem_reverse.1 hb', heq⟩
  refine ⟨?_, ?_, ?_, ?_, ?_⟩
  · rw [hids]
    exact nodup_reverse.2 hfits.nodup_ids
  · rw [hids]
    exact mem_reverse.2 hclosed
  · intro b hb target htarget
    obtain ⟨b', hb', rfl⟩ := hblocks b hb
    rw [term_withSlotsAt] at htarget
    obtain ⟨hmem, hne⟩ := hfits.targets b' hb' target htarget
    refine ⟨?_, hne⟩
    rw [hids]
    refine mem_reverse.2 ((mem_cons.1 hmem).resolve_left fun heq => ?_)
    exact hunreached b' hb' (heq ▸ htarget)
  · exact ((h.perm_instrs_code f).filterMap _).nodup_iff.2 h.values.nodup
  · intro b hb
    obtain ⟨b', hb', rfl⟩ := hblocks b hb
    rw [hfits.bodyOf_code f hb', term_withSlotsAt]
    exact ⟨(hfits.blocks b' hb').1.mono hmade, (hfits.blocks b' hb').2⟩

theorem IsCodeOf.wellFormed {ctx : Context} {printSymbol : String} {m : Module}
    {f : DeferLang.Function} {code : Function} (h : IsCodeOf ctx printSymbol m f code) :
    code.WellFormed := by
  obtain ⟨before, s, inner, hbody, -, rfl⟩ := h
  exact (LowersBlock.fits f.body hbody (Lowering.fits_start before f.name.name)).wellFormed f

end Finish

end Code

end DeferLang
