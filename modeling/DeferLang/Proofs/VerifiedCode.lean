import Mathlib.Data.List.TakeWhile
import DeferLang.Proofs.CompilationEnds
import DeferLang.Proofs.WellFormedCode

/-!
# Verification of lowered code

Verification accepts every module of well-formed functions that are linked: constants are
in the module, and calls agree with the signatures that the module knows.  Lowered code is
linked, but for one clash: the name of the print routine can be chosen, and then a routine
that a `defer` calls may have the same name and another signature.
-/

namespace DeferLang

open List

namespace Code

variable {b : BasicBlock} {inEntry : Bool} {c : Call} {args : CallArgs} {defs : Definitions}
  {i : Instr} {code : List Instr} {s s' : Lowering} {m : Module} {x : Operand} {name : String}
  {α ε : Type} {type : ValueType}

section Rules

/-- A signature takes arguments of the given types and gives the result. -/
def Signature.Accepts (s : Signature) (result : ValueType) (args : List ValueType) : Prop :=
  s.result = result ∧ s.params <+: args ∧ (s.isVariadic = false → s.params = args)

/-- An operand that is an address is that of a constant in the module. -/
def Operand.Linked (m : Module) : Operand → Prop
  | .address name => m.constants.any (·.name = name) = true
  | _ => True

/-- The operands of an operation are linked, and a call agrees with the signature of its
callee. -/
def Operation.Linked (m : Module) : Operation → Prop
  | .slot _ => True
  | .load _ _ => True
  | .store _ value _ => value.Linked m
  | .binary _ _ left right => left.Linked m ∧ right.Linked m
  | .widen value => value.Linked m
  | .call callee result args =>
    (∃ s, m.signature? callee = some s ∧ s.Accepts result (args.map Prod.fst)) ∧
      ∀ arg ∈ args, arg.2.Linked m

/-- A function is linked in a module under a name. -/
structure Function.Linked (m : Module) (name : String) (f : Function) : Prop where
  not_extern : m.externs.lookup name = none
  name_eq : f.name = name
  result_ne : f.result ≠ .ptr
  instrs : ∀ i ∈ f.instrs, i.operation.Linked m

end Rules

section Acceptance

theorem demand_eq_ok {holds : Bool} {fault : VerifyFault} :
    demand holds fault = .ok () ↔ holds = true := by
  cases holds with
  | true => exact ⟨fun _ => rfl, fun _ => rfl⟩
  | false => exact ⟨fun h => by contradiction, fun h => by contradiction⟩

theorem exists_of_bind_eq_ok {β : Type} {x : Except ε α} {f : α → Except ε β} {b : β}
    (h : (x >>= f) = .ok b) : ∃ a, x = .ok a ∧ f a = .ok b := by
  cases x with
  | ok a => exact ⟨a, rfl, h⟩
  | error e => contradiction

theorem bind_eq_ok {x : Except ε Unit} {f : Unit → Except ε α} {a : α} :
    (x >>= f) = .ok a ↔ x = .ok () ∧ f () = .ok a := by
  refine ⟨fun h => ?_, fun h => ?_⟩
  · obtain ⟨_, hx, hf⟩ := exists_of_bind_eq_ok h
    exact ⟨hx, hf⟩
  · rw [h.1]
    exact h.2

theorem forM_eq_ok {f : α → Except ε Unit} {xs : List α} :
    xs.forM f = .ok () ↔ ∀ x ∈ xs, f x = .ok () := by
  induction xs with
  | nil => exact ⟨fun _ _ hx => by contradiction, fun _ => rfl⟩
  | cons x xs ih =>
    rw [forall_mem_cons, ← ih]
    exact bind_eq_ok

/-- Distinct numbers are collected, if none of them was seen before. -/
theorem foldlM_collect {rest : List BasicBlock} (hnodup : (rest.map BasicBlock.id).Nodup)
    {seen : Std.HashSet BlockId} (hnew : ∀ b ∈ rest, b.id ∉ seen) :
    ∃ ids : Std.HashSet BlockId,
      rest.foldlM (fun seen b => if b.id ∈ seen then .error (VerifyFault.duplicateBlock b.id)
        else .ok (seen.insert b.id)) seen = Except.ok ids ∧
      ∀ id, id ∈ ids ↔ id ∈ seen ∨ id ∈ rest.map BasicBlock.id := by
  induction rest generalizing seen with
  | nil => exact ⟨seen, rfl, fun id => (or_iff_left not_mem_nil).symm⟩
  | cons b rest ih =>
    obtain ⟨hb, hnodup⟩ := nodup_cons.1 hnodup
    rw [forall_mem_cons] at hnew
    have hrest : ∀ b' ∈ rest, b'.id ∉ seen.insert b.id := by
      intro b' hb' hmem
      rcases Std.HashSet.mem_insert.1 hmem with heq | hold
      · exact hb (eq_of_beq heq ▸ mem_map_of_mem hb')
      · exact hnew.2 b' hb' hold
    obtain ⟨ids, hids, hmem⟩ := ih hnodup hrest
    refine ⟨ids, ?_, fun id => ?_⟩
    · rw [foldlM_cons, if_neg hnew.1]
      exact hids
    · rw [hmem, Std.HashSet.mem_insert, map_cons, mem_cons, beq_iff_eq,
        or_comm (a := b.id = id), or_assoc, eq_comm]

theorem collectBlocks_eq_ok {blocks : List BasicBlock} (hnodup : (blocks.map BasicBlock.id).Nodup) :
    ∃ ids, collectBlocks blocks = .ok ids ∧ ∀ id, id ∈ ids ↔ id ∈ blocks.map BasicBlock.id := by
  obtain ⟨ids, hids, hmem⟩ := foldlM_collect hnodup fun _ _ => Std.HashSet.not_mem_empty
  exact ⟨ids, hids, fun id => (hmem id).trans (or_iff_right Std.HashSet.not_mem_empty)⟩

/-- The definitions of instructions, and no others. -/
structure Definitions.Records (defs : Definitions) (code : List Instr) : Prop where
  dests : ∀ id ∈ defs.values, id ∈ code.filterMap Instr.dest
  values : ∀ i ∈ code, ∀ id type, i.defines? = some (id, type) → defs.values[id]? = some type
  slots : ∀ i ∈ code, ∀ id type, i.slot? = some (id, type) → defs.slots[id]? = some type

/-- What verification demands of an instruction that defines a value. -/
structure Instr.Definable (inEntry : Bool) (i : Instr) : Prop where
  result : i.dest.isSome → ∃ type, i.operation.resultType? = some type ∧ type ≠ .void
  slot : i.isSlot = true → inEntry = true

/-- The definitions with those of an instruction added. -/
def Definitions.with (defs : Definitions) (id : ValueId) (type : ValueType) (i : Instr) :
    Definitions where
  values := defs.values.insert id type
  slots :=
    match i.operation with
    | .slot held => defs.slots.insert id held
    | _ => defs.slots

theorem Definitions.add_eq_ok {id : ValueId} (h : i.Definable inEntry) (hdest : i.dest = some id)
    (htype : i.operation.resultType? = some type) (hvoid : type ≠ .void)
    (hnew : id ∉ defs.values) : defs.add inEntry i = .ok (defs.with id type i) := by
  have hvoid' : demand (type ≠ .void) (.voidResult id) = .ok () :=
    demand_eq_ok.2 (decide_eq_true hvoid)
  have hnew' : demand (id ∉ defs.values) (.redefined id) = .ok () :=
    demand_eq_ok.2 (decide_eq_true hnew)
  unfold Definitions.add Definitions.with
  rw [hdest, htype]
  cases hop : i.operation with
  | slot held =>
    have hentry : inEntry = true := h.slot (by rw [Instr.isSlot, hop])
    dsimp only
    rw [hentry, if_pos rfl, pure_bind, pure_bind, hvoid', hnew']
    rfl
  | _ =>
    dsimp only
    rw [pure_bind, pure_bind, hvoid', hnew']
    rfl

theorem Definitions.Records.add (h : defs.Records code) (hi : i.Definable inEntry)
    (hnew : ∀ id ∈ i.dest, id ∉ code.filterMap Instr.dest) :
    ∃ defs', defs.add inEntry i = .ok defs' ∧ defs'.Records (code ++ [i]) := by
  cases hdest : i.dest with
  | none =>
    have hdefines : i.defines? = none := by rw [Instr.defines?, hdest]
    have hslot : i.slot? = none := by rw [Instr.slot?, hdest]
    refine ⟨defs, by rw [Definitions.add, hdest], ?_, ?_, ?_⟩
    · intro id hid
      rw [filterMap_append]
      exact mem_append_left _ (h.dests id hid)
    · refine forall_mem_append.2 ⟨h.values, forall_mem_singleton.2 ?_⟩
      exact fun _ _ hsome => by rw [hdefines] at hsome; contradiction
    · refine forall_mem_append.2 ⟨h.slots, forall_mem_singleton.2 ?_⟩
      exact fun _ _ hsome => by rw [hslot] at hsome; contradiction
  | some id =>
    obtain ⟨type, htype, hvoid⟩ := hi.result (hdest ▸ rfl)
    have hfresh := hnew id (hdest ▸ rfl)
    have hdefines : i.defines? = some (id, type) := by rw [Instr.defines?, hdest, htype]
    -- what is recorded already has another number
    have hother : ∀ i' ∈ code, ∀ id', i'.dest = some id' → (id == id') = false := by
      intro i' hi' id' hdest'
      refine beq_false_of_ne fun heq => hfresh ?_
      exact mem_filterMap.2 ⟨i', hi', hdest'.trans (congrArg some heq.symm)⟩
    refine ⟨defs.with id type i, Definitions.add_eq_ok hi hdest htype hvoid
      (fun hmem => hfresh (h.dests id hmem)), ?_, ?_, ?_⟩
    · intro id' hid'
      rw [filterMap_append]
      rcases Std.HashMap.mem_insert.1 hid' with heq | hold
      · refine mem_append_right _ (mem_filterMap.2 ⟨i, mem_cons_self, ?_⟩)
        rw [hdest, eq_of_beq heq]
      · exact mem_append_left _ (h.dests id' hold)
    · refine forall_mem_append.2 ⟨fun i' hi' id' type' hsome => ?_,
        forall_mem_singleton.2 fun id' type' hsome => ?_⟩
      · change (defs.values.insert id type)[id']? = some type'
        rw [Std.HashMap.getElem?_insert, hother i' hi' id' (Instr.defines?_eq_some.1 hsome).1]
        exact h.values i' hi' id' type' hsome
      · obtain ⟨rfl, rfl⟩ := Prod.mk.inj (Option.some.inj (hdefines.symm.trans hsome))
        exact Std.HashMap.getElem?_insert_self
    · refine forall_mem_append.2 ⟨fun i' hi' id' held hsome => ?_,
        forall_mem_singleton.2 fun id' held hsome => ?_⟩
      · have hold := h.slots i' hi' id' held hsome
        change (match i.operation with
          | .slot held => defs.slots.insert id held
          | _ => defs.slots)[id']? = some held
        split
        · rwa [Std.HashMap.getElem?_insert, hother i' hi' id' (Instr.slot?_eq_some.1 hsome).1]
        · exact hold
      · obtain ⟨hid, hop⟩ := Instr.slot?_eq_some.1 hsome
        obtain rfl := Option.some.inj (hdest.symm.trans hid)
        change (match i.operation with
          | .slot held => defs.slots.insert id held
          | _ => defs.slots)[id]? = some held
        rw [hop]
        exact Std.HashMap.getElem?_insert_self

/-- All instructions of a list are recorded. -/
theorem Definitions.Records.foldlM_instrs {more : List Instr}
    (hmore : ∀ i ∈ more, i.Definable inEntry)
    (h : defs.Records code) (hnodup : ((code ++ more).filterMap Instr.dest).Nodup) :
    ∃ defs', more.foldlM (fun defs i => defs.add inEntry i) defs = .ok defs' ∧
      defs'.Records (code ++ more) := by
  induction more generalizing defs code with
  | nil => exact ⟨defs, rfl, by rwa [append_nil]⟩
  | cons i more ih =>
    rw [forall_mem_cons] at hmore
    rw [append_cons] at hnodup ⊢
    have hnew : ∀ id ∈ i.dest, id ∉ code.filterMap Instr.dest := by
      intro id hid hmem
      rw [append_assoc, filterMap_append] at hnodup
      refine (nodup_append'.1 hnodup).2.2 hmem ?_
      exact mem_filterMap.2 ⟨i, mem_cons_self, hid⟩
    obtain ⟨defs₁, hadd, hrecords⟩ := h.add hmore.1 hnew
    obtain ⟨defs', hfold, hrecords'⟩ := ih hmore.2 hrecords hnodup
    refine ⟨defs', ?_, hrecords'⟩
    rw [foldlM_cons, hadd]
    exact hfold

theorem Definitions.Records.foldlM_blocks {entry : BlockId} {blocks : List BasicBlock}
    (hblocks : ∀ b ∈ blocks, ∀ i ∈ b.instrs, i.Definable (b.id = entry)) (h : defs.Records code)
    (hnodup : ((code ++ blocks.flatMap BasicBlock.instrs).filterMap Instr.dest).Nodup) :
    ∃ defs', blocks.foldlM
        (fun defs b => b.instrs.foldlM (fun defs i => defs.add (b.id = entry) i) defs) defs =
          .ok defs' ∧
      defs'.Records (code ++ blocks.flatMap BasicBlock.instrs) := by
  induction blocks generalizing defs code with
  | nil => exact ⟨defs, rfl, by rwa [flatMap_nil, append_nil]⟩
  | cons b blocks ih =>
    rw [forall_mem_cons] at hblocks
    rw [flatMap_cons, ← append_assoc] at hnodup ⊢
    have hfirst : ((code ++ b.instrs).filterMap Instr.dest).Nodup := by
      rw [filterMap_append] at hnodup
      exact (nodup_append'.1 hnodup).1
    obtain ⟨defs₁, hadd, hrecords⟩ := h.foldlM_instrs hblocks.1 hfirst
    obtain ⟨defs', hfold, hrecords'⟩ := ih hblocks.2 hrecords hnodup
    refine ⟨defs', ?_, hrecords'⟩
    rw [foldlM_cons, hadd]
    exact hfold

theorem TypedCode.typed_of_mem {slots known : Known}
    (h : TypedCode slots known code) (hi : i ∈ code) :
    ∃ before, i.Typed slots before ∧ before ⊆ definedBy code ++ known := by
  obtain ⟨front, back, rfl⟩ := append_of_mem hi
  obtain ⟨-, htyped, -⟩ := typedCode_append.1 h
  refine ⟨definedBy front ++ known, htyped, ?_⟩
  rw [definedBy_append, append_assoc]
  exact subset_append_right _ _

theorem Function.bodyOf_subset (f : Function) (b : BasicBlock) : f.bodyOf b ⊆ b.instrs := by
  unfold bodyOf
  split
  · exact (dropWhile_sublist _).subset
  · exact List.Subset.refl _

/-- An instruction of a function makes a slot at its start, or is behind the slots. -/
theorem Function.slot_or_mem_bodyOf (f : Function) (hi : i ∈ b.instrs) :
    (b.id = f.entry ∧ ∃ type, i.operation = .slot type) ∨ i ∈ f.bodyOf b := by
  unfold bodyOf
  split
  · rename_i hentry
    rw [← takeWhile_append_dropWhile (p := Instr.isSlot) (l := b.instrs)] at hi
    rcases mem_append.1 hi with hslot | hbody
    · exact .inl ⟨hentry, Instr.isSlot_eq_true.1 (mem_takeWhile_imp hslot)⟩
    · exact .inr hbody
  · exact .inr hi

namespace Function.WellFormed

variable {f : Function} (h : f.WellFormed)
include h

theorem definable (hb : b ∈ f.blocks) (hi : i ∈ b.instrs) :
    i.Definable (b.id = f.entry) := by
  rcases f.slot_or_mem_bodyOf hi with ⟨hentry, type, hop⟩ | hbody
  · refine ⟨fun _ => ⟨.ptr, by rw [hop]; rfl, ValueType.noConfusion⟩, fun _ => ?_⟩
    exact decide_eq_true hentry
  · obtain ⟨known, htyped, -⟩ := (h.typed b hb).1.typed_of_mem hbody
    refine ⟨htyped.2, fun hslot => ?_⟩
    rw [(h.typed b hb).1.not_isSlot i hbody] at hslot
    contradiction

/-- The definitions of a well-formed function are all found. -/
theorem definitions_eq_ok : ∃ defs, f.definitions = .ok defs ∧ defs.Records f.instrs := by
  have hempty : ({} : Definitions).Records [] :=
    ⟨fun _ hid => absurd hid Std.HashMap.not_mem_empty, fun _ hi => by contradiction,
      fun _ hi => by contradiction⟩
  exact hempty.foldlM_blocks (fun b hb i hi => h.definable hb hi) h.values_nodup

end Function.WellFormed

section Check

variable {m : Module} {defs : Definitions} {known slots : Known}
  (hknown : ∀ entry ∈ known, defs.values[entry.1]? = some entry.2)
  (hslots : ∀ entry ∈ slots, defs.slots[entry.1]? = some entry.2)

include hknown in
/-- An operand of the demanded type is accepted. -/
theorem Operand.HasType.checkOperand (h : x.HasType known type)
    (hlinked : x.Linked m) : m.checkOperand defs x type = .ok () := by
  have htype : m.operandType defs x = .ok type := by
    cases x with
    | value id => rw [Module.operandType, hknown _ h]
    | const32 n | const1 b => exact congrArg _ h.symm
    | address name => exact (if_pos hlinked).trans (congrArg _ h.symm)
  rw [Module.checkOperand, htype]
  exact demand_eq_ok.2 (decide_eq_true rfl)

include hslots in
theorem checkSlot_eq_ok {id : ValueId} (h : (id, type) ∈ slots) :
    defs.checkSlot id type = .ok () := by
  rw [Definitions.checkSlot, hslots _ h]
  exact demand_eq_ok.2 (decide_eq_true rfl)

/-- Arguments of the types of the parameters are accepted. -/
theorem checkArgs_eq_ok {callee : String}
    (hargs : ∀ arg ∈ args, m.checkOperand defs arg.2 arg.1 = .ok ()) {params : List ValueType}
    (hparams : params <+: args.map Prod.fst) (index : Nat) :
    m.checkArgs defs callee index params args = .ok () := by
  induction args generalizing params index with
  | nil =>
    rw [prefix_nil.1 hparams]
    rfl
  | cons arg args ih =>
    rw [forall_mem_cons] at hargs
    cases params with
    | nil => exact bind_eq_ok.2 ⟨hargs.1, ih hargs.2 (List.nil_prefix) _⟩
    | cons param params =>
      obtain ⟨hparam, hrest⟩ := cons_prefix_cons.1 hparams
      refine bind_eq_ok.2 ⟨demand_eq_ok.2 (decide_eq_true hparam), ?_⟩
      exact bind_eq_ok.2 ⟨hargs.1, ih hargs.2 hrest _⟩

include hknown hslots in
/-- An operation that is typed and linked is accepted. -/
theorem Operation.Typed.checkOperation {op : Operation} (h : op.Typed slots known)
    (hlinked : op.Linked m) : m.checkOperation defs op = .ok () := by
  cases op with
  | slot type => rfl
  | load type place => exact checkSlot_eq_ok hslots h
  | store type value place =>
    exact bind_eq_ok.2 ⟨checkSlot_eq_ok hslots h.2, h.1.checkOperand hknown hlinked⟩
  | binary op type left right =>
    exact bind_eq_ok.2 ⟨h.2.1.checkOperand hknown hlinked.1, h.2.2.checkOperand hknown hlinked.2⟩
  | widen value => exact Operand.HasType.checkOperand hknown h hlinked
  | call callee result args =>
    obtain ⟨⟨s, hs, hresult, hparams, hfixed⟩, hargs⟩ := hlinked
    have hcount : s.params.length = args.length ∨
        s.isVariadic = true ∧ s.params.length < args.length := by
      have hle := hparams.length_le
      rw [length_map] at hle
      rcases Nat.lt_or_eq_of_le hle with hlt | heq
      · refine .inr ⟨?_, hlt⟩
        by_contra hvariadic
        rw [hfixed (eq_false_of_ne_true hvariadic), length_map] at hlt
        exact Nat.lt_irrefl _ hlt
      · exact .inl heq
    change m.checkCall defs callee result args = .ok ()
    rw [Module.checkCall, hs]
    refine bind_eq_ok.2 ⟨demand_eq_ok.2 (decide_eq_true hresult), ?_⟩
    refine bind_eq_ok.2 ⟨demand_eq_ok.2 (decide_eq_true hcount), ?_⟩
    exact checkArgs_eq_ok (fun arg harg => (h arg harg).checkOperand hknown (hargs arg harg))
      hparams 0

theorem Operand.HasType.linked (h : x.HasType known type) (hne : type ≠ .ptr) : x.Linked m := by
  cases x with
  | address name => exact absurd h hne
  | _ => trivial

include hknown in
theorem Terminator.Typed.checkTerminator {f : Function} {ids : Std.HashSet BlockId}
    (h : b.term.Typed known f.result) (hresult : f.result ≠ .ptr)
    (htargets : ∀ target ∈ b.term.targets, target ∈ ids) :
    m.checkTerminator f ids defs b = .ok () := by
  unfold Module.checkTerminator
  cases hterm : b.term with
  | ret result =>
    rw [hterm] at h
    cases result with
    | none => exact demand_eq_ok.2 (decide_eq_true h)
    | some result =>
      obtain ⟨htype, hvalue⟩ := h
      refine bind_eq_ok.2 ⟨demand_eq_ok.2 (decide_eq_true htype), ?_⟩
      exact hvalue.checkOperand hknown (hvalue.linked (htype ▸ hresult))
  | jump target =>
    rw [hterm] at htargets
    exact demand_eq_ok.2 (decide_eq_true (htargets target mem_cons_self))
  | branch cond thenTarget elseTarget =>
    rw [hterm] at h htargets
    have hcond : m.checkOperand defs cond .i1 = .ok () :=
      Operand.HasType.checkOperand hknown h (Operand.HasType.linked h ValueType.noConfusion)
    have helse := mem_cons_of_mem thenTarget (mem_singleton_self elseTarget)
    refine bind_eq_ok.2 ⟨hcond, bind_eq_ok.2 ⟨demand_eq_ok.2 ?_, demand_eq_ok.2 ?_⟩⟩
    · exact decide_eq_true (htargets thenTarget mem_cons_self)
    · exact decide_eq_true (htargets elseTarget helse)

end Check

/-- A function that is well formed and linked is accepted. -/
theorem Function.WellFormed.checkFunction {f : Function}
    (h : f.WellFormed) (hlinked : f.Linked m name) : m.checkFunction name f = .ok () := by
  obtain ⟨ids, hids, hmem⟩ := collectBlocks_eq_ok h.blocks_nodup
  obtain ⟨defs, hdefs, hrecords⟩ := h.definitions_eq_ok
  have hslots : ∀ entry ∈ f.slots, defs.slots[entry.1]? = some entry.2 := by
    intro entry hentry
    unfold Function.slots at hentry
    split at hentry
    · rename_i b hb
      obtain ⟨i, hi, hslot⟩ := mem_filterMap.1 hentry
      have hblock : b ∈ f.blocks := mem_of_find?_eq_some hb
      refine hrecords.slots i (mem_flatMap.2 ⟨b, hblock, ?_⟩) entry.1 entry.2 hslot
      exact (takeWhile_sublist _).subset hi
    · contradiction
  have hknown : ∀ b ∈ f.blocks, ∀ entry ∈ definedBy (f.bodyOf b),
      defs.values[entry.1]? = some entry.2 := by
    intro b hb entry hentry
    obtain ⟨i, hi, hdefines⟩ := mem_filterMap.1 (mem_reverse.1 hentry)
    refine hrecords.values i (mem_flatMap.2 ⟨b, hb, ?_⟩) entry.1 entry.2 hdefines
    exact f.bodyOf_subset b hi
  have hblock : ∀ b ∈ f.blocks, m.checkBlock f ids defs b = .ok () := by
    intro b hb
    refine bind_eq_ok.2 ⟨forM_eq_ok.2 fun i hi => ?_, ?_⟩
    · have hi' := hlinked.instrs i (mem_flatMap.2 ⟨b, hb, hi⟩)
      rcases f.slot_or_mem_bodyOf hi with ⟨-, type, hop⟩ | hbody
      · rw [hop]
        rfl
      · obtain ⟨before, htyped, hsub⟩ := (h.typed b hb).1.typed_of_mem hbody
        rw [append_nil] at hsub
        exact htyped.1.checkOperation (fun entry hentry => hknown b hb entry (hsub hentry)) hslots
          hi'
    · refine (h.typed b hb).2.checkTerminator (hknown b hb) hlinked.result_ne ?_
      exact fun target htarget => (hmem target).2 (h.targets b hb target htarget).1
  have hnonempty : (!f.blocks.isEmpty) = true := by
    have hentry := h.entry_mem
    cases hblocks : f.blocks with
    | nil =>
      rw [hblocks] at hentry
      contradiction
    | cons => rfl
  unfold Module.checkFunction
  rw [hids, hdefs]
  refine bind_eq_ok.2 ⟨demand_eq_ok.2 (by rw [hlinked.not_extern]; rfl), ?_⟩
  refine bind_eq_ok.2 ⟨demand_eq_ok.2 (decide_eq_true hlinked.name_eq), ?_⟩
  refine bind_eq_ok.2 ⟨demand_eq_ok.2 hnonempty, ?_⟩
  refine bind_eq_ok.2 ⟨demand_eq_ok.2 (decide_eq_true ((hmem f.entry).2 h.entry_mem)), ?_⟩
  exact forM_eq_ok.2 hblock

/-- A module of functions that are well formed and linked is accepted. -/
theorem verify_eq_ok
    (h : ∀ entry ∈ m.functions, entry.2.WellFormed ∧ entry.2.Linked m entry.1) :
    m.verify = .ok () := by
  refine forM_eq_ok.2 fun entry hentry => ?_
  dsimp only
  rw [(h entry hentry).1.checkFunction (h entry hentry).2]

/-- In a module that is accepted, a call has the result of its callee. -/
theorem signature?_of_verify (h : m.verify = .ok ()) {entry : String × Function}
    (hentry : entry ∈ m.functions) (hi : i ∈ entry.2.instrs) {callee : String}
    {result : ValueType} (hop : i.operation = .call callee result args) :
    ∃ s, m.signature? callee = some s ∧ s.result = result := by
  have hfunction : m.checkFunction entry.1 entry.2 = .ok () := by
    have hok := forM_eq_ok.1 h entry hentry
    dsimp only at hok
    split at hok
    · assumption
    · contradiction
  obtain ⟨-, hfunction⟩ := bind_eq_ok.1 hfunction
  obtain ⟨-, hfunction⟩ := bind_eq_ok.1 hfunction
  obtain ⟨-, hfunction⟩ := bind_eq_ok.1 hfunction
  obtain ⟨ids, -, hfunction⟩ := exists_of_bind_eq_ok hfunction
  obtain ⟨-, hfunction⟩ := bind_eq_ok.1 hfunction
  obtain ⟨defs, -, hblocks⟩ := exists_of_bind_eq_ok hfunction
  obtain ⟨b, hb, hib⟩ := mem_flatMap.1 hi
  have hcall := forM_eq_ok.1 (bind_eq_ok.1 (forM_eq_ok.1 hblocks b hb)).1 i hib
  rw [hop] at hcall
  change m.checkCall defs callee result args = .ok () at hcall
  unfold Module.checkCall at hcall
  split at hcall
  · contradiction
  · rename_i s hs
    exact ⟨s, hs, of_decide_eq_true (demand_eq_ok.1 (bind_eq_ok.1 hcall).1)⟩

end Acceptance

section Linking

variable {ctx : Context} {printSymbol : String} {scope : List SymbolId} {m : Module}

theorem Operand.linked_of_ne_address (h : ∀ name, x ≠ .address name) :
    x.Linked m := by
  cases x with
  | address name => exact absurd rfl (h name)
  | _ => trivial

theorem Module.Extends.linked {m' : Module} (h : m.Extends m') (hx : x.Linked m) : x.Linked m' := by
  cases x with
  | address name =>
    obtain ⟨c, hc, hname⟩ := any_eq_true.1 hx
    exact any_eq_true.2 ⟨c, h.constants.subset hc, hname⟩
  | _ => trivial

/-- The constant for a text is in the module. -/
theorem Module.linked_intern (m : Module) (text : String) :
    (Operand.address (m.intern text).2).Linked (m.intern text).1 := by
  unfold intern
  dsimp only
  split
  · rename_i c hc
    exact any_eq_true.2 ⟨c, mem_of_find?_eq_some hc, decide_eq_true rfl⟩
  · exact any_eq_true.2 ⟨_, mem_append_right _ mem_cons_self, decide_eq_true rfl⟩

theorem Computes.linked {slots : Slots} {first : ValueId} {e : Expr}
    (h : Computes ctx scope slots first e code x type) :
    (∀ i ∈ code, i.operation.Linked m) ∧ x.Linked m := by
  induction h with
  | int _ => exact ⟨fun _ hi => by contradiction, trivial⟩
  | bool => exact ⟨fun _ hi => by contradiction, trivial⟩
  | var _ _ _ => exact ⟨forall_mem_singleton.2 trivial, trivial⟩
  | binary _ _ _ hl hr =>
    refine ⟨forall_mem_append.2 ⟨hl.1, forall_mem_append.2 ⟨hr.1, ?_⟩⟩, trivial⟩
    exact forall_mem_singleton.2 ⟨hl.2, hr.2⟩

theorem Prints.linked {slots : Slots} {first : ValueId} {arg : Expr}
    (h : Prints ctx scope slots first arg code x) :
    (∀ i ∈ code, i.operation.Linked m) ∧ x.Linked m := by
  cases h with
  | number hcode => exact hcode.linked
  | truth hcode =>
    refine ⟨forall_mem_append.2 ⟨hcode.linked.1, ?_⟩, trivial⟩
    exact forall_mem_singleton.2 hcode.linked.2

/-- All instructions that were made have a property. -/
def Lowering.Every (P : Instr → Prop) (s : Lowering) : Prop :=
  ∀ i ∈ s.body, P i

namespace Lowering.Every

variable {P : Instr → Prop} {s : Lowering} (h : s.Every P)
include h

theorem emitted {span : Span} {op : Operation} (hop : P ⟨span, none, op⟩) :
    (s.emitted span op).Every P :=
  forall_mem_cons.2 ⟨hop, h⟩

theorem computed (hcode : ∀ i ∈ code, P i) : (s.computed code).Every P := by
  change ∀ i ∈ (code.reverse ++ s.instrs) ++ _, _
  rw [append_assoc]
  exact forall_mem_append.2 ⟨fun i hi => hcode i (mem_reverse.1 hi), h⟩

theorem closed (count : Nat) (term : Terminator) (next : BlockId) :
    ((s.reserved count).closed term next).Every P := by
  have hperm := (reverse_perm s.instrs).append_right (s.blocks.flatMap BasicBlock.instrs)
  exact fun i hi => h i (hperm.mem_iff.1 hi)

end Lowering.Every

section Everywhere

variable {P : Instr → Prop} (hcomputed : ∀ {inner slots first e code x type},
  Computes ctx inner slots first e code x type → ∀ i ∈ code, P i)
include hcomputed

theorem LowersArgs.every {s s' : Lowering} {es : List Expr}
    (h : LowersArgs ctx scope s es s' args) (hs : s.Every P) : s'.Every P := by
  induction h with
  | nil => exact hs
  | text _ ih => exact ih hs
  | value hcode _ ih => exact ih (hs.computed (hcomputed hcode))

variable (hstored : ∀ span type x slot, (∀ name, x ≠ .address name) →
  P ⟨span, none, .store type x slot⟩)
include hstored

/-- Behind a block, all instructions have a property that those of expressions, stores and calls
have. -/
theorem LowersBlock.every (b : BlockOf Stmt)
    (hcall : ∀ {inner t c t'}, c ∈ callsOfBlock b → LowersCall ctx printSymbol inner t c t' →
      t'.module.Extends m → t.Every P → t'.Every P) {scope' : List SymbolId}
    (h : LowersBlock ctx printSymbol scope s b s' scope') (hm : s'.module.Extends m)
    (hs : s.Every P) : s'.Every P := by
  -- later steps only add to the module, so that a call may rely on the last one
  have hsteps : Stepwise ctx printSymbol [] (callsOfBlock b) fun t t' =>
      t.Grows t' ∧ (t'.module.Extends m → t.Every P → t'.Every P) :=
    { refl := fun t => ⟨.refl t, fun _ ht => ht⟩
      trans := fun h h' =>
        ⟨h.1.trans h'.1, fun hm ht => h'.2 hm (h.2 (h'.1.module.trans hm) ht)⟩
      withSlot := fun t _ _ _ _ => ⟨.withSlot t _ _ _, fun _ ht => ht⟩
      computed := fun hcode => ⟨.computed _ _, fun _ ht => ht.computed (hcomputed hcode)⟩
      stored := fun t _ _ _ _ hx => ⟨.emitted t _ _, fun _ ht => ht.emitted (hstored _ _ _ _ hx)⟩
      closed := fun t _ _ _ => ⟨.closed t _ _ _, fun _ ht => ht.closed _ _ _⟩
      call := fun hc h => ⟨h.grows, hcall hc h⟩ }
  exact (LowersBlock.keeps b hsteps h (nil_subset _)).1.2 hm hs

/-- All instructions of a function have such a property, if slots have it too. -/
theorem IsCodeOf.every {f : DeferLang.Function} {code : Function}
    (h : IsCodeOf ctx printSymbol m f code) (hslot : ∀ i : Instr, i.isSlot = true → P i)
    (hcall : ∀ {inner t c t'}, c ∈ callsOfBlock f.body →
      LowersCall ctx printSymbol inner t c t' → t'.module.Extends m → t.Every P → t'.Every P) :
    ∀ i ∈ code.instrs, P i := by
  obtain ⟨before, s, inner, hbody, hextends, rfl⟩ := h
  have hfits := LowersBlock.fits f.body hbody (Lowering.fits_start before f.name.name)
  intro i hi
  rcases mem_append.1 ((hfits.perm_instrs_code f).mem_iff.1 hi) with hmem | hmem
  · exact hslot i (hfits.isSlot i hmem)
  · exact LowersBlock.every hcomputed hstored f.body hcall hbody hextends
      (fun _ hnone => by contradiction) i hmem

end Everywhere

/-- All instructions that were made are linked. -/
def Lowering.Linked (m : Module) (s : Lowering) : Prop :=
  s.Every (·.operation.Linked m)

theorem LowersArgs.linked {es : List Expr}
    (h : LowersArgs ctx scope s es s' args) (hm : s'.module.Extends m) :
    ∀ arg ∈ args, arg.2.Linked m := by
  induction h with
  | nil => exact fun _ harg => by contradiction
  | text hrest ih =>
    refine forall_mem_cons.2 ⟨?_, ih hm⟩
    exact (hrest.grows.module.trans hm).linked (Module.linked_intern _ _)
  | value hcode _ ih => exact forall_mem_cons.2 ⟨hcode.linked.2, ih hm⟩

/-- What calls need of a module: the functions of the program are there, and only they. -/
structure Module.Serves (m : Module) (ctx : Context) (printSymbol : String) : Prop where
  function : ∀ name, (ctx.function? name).isSome = true →
    m.signature? name = some ⟨resultType name, [], false⟩
  routine : ∀ name, ctx.function? name = none → m.functions.lookup name = none
  print : m.functions.lookup printSymbol = none

/-- The print routine is declared with its own signature, if it is declared. -/
def Module.PrintDeclared (m : Module) (printSymbol : String) : Prop :=
  ∀ s, m.externs.lookup printSymbol = some s → s = Lower.printSignature

/-- A call of the print routine is linked, if the routine is declared with its own signature. -/
theorem Module.Serves.linked_print (hserves : m.Serves ctx printSymbol)
    (hprint : m.PrintDeclared printSymbol) {before : Module} {format : String}
    (hm : (before.printing printSymbol format).1.Extends m) {rest : CallArgs}
    (hrest : ∀ arg ∈ rest, arg.2.Linked m) :
    (Operation.call printSymbol .i32
      ((.ptr, .address (before.printing printSymbol format).2) :: rest)).Linked m := by
  have hs := (before.lookup_declared printSymbol printSymbol Lower.printSignature).trans
    (if_pos rfl)
  have hs' := hm.externs _ _ ((Module.extends_intern _ format).externs _ _ hs)
  rw [hprint _ hs'] at hs'
  refine ⟨⟨Lower.printSignature, ?_, ?_⟩,
    forall_mem_cons.2 ⟨hm.linked (Module.linked_intern _ _), hrest⟩⟩
  · rw [Module.signature?, hserves.print]
    exact hs'
  · exact ⟨rfl, prefix_append [ValueType.ptr] _, fun h => by contradiction⟩

/-- A lowered call is linked. -/
theorem LowersCall.linked (hserves : m.Serves ctx printSymbol) {call : Call}
    (h : LowersCall ctx printSymbol scope s call s') (hm : s'.module.Extends m)
    (hprint : call.callee.name = printName → m.PrintDeclared printSymbol)
    (hs : s.Linked m) : s'.Linked m := by
  cases h with
  | printText hname _ =>
    exact Lowering.Every.emitted hs
      (hserves.linked_print (hprint hname) hm fun _ harg => by contradiction)
  | printNumber hname _ hcode =>
    exact Lowering.Every.emitted (Lowering.Every.computed hs hcode.linked.1)
      (hserves.linked_print (hprint hname) hm (forall_mem_singleton.2 hcode.linked.2))
  | function _ hknown _ hresult =>
    refine Lowering.Every.emitted hs
      ⟨⟨_, hserves.function _ hknown, ?_⟩, fun _ harg => by contradiction⟩
    exact ⟨hresult, prefix_refl _, fun _ => rfl⟩
  | main _ hknown _ hresult =>
    refine Lowering.Every.computed hs (forall_mem_singleton.2
      ⟨⟨_, hserves.function _ hknown, ?_⟩, fun _ harg => by contradiction⟩)
    exact ⟨hresult, prefix_refl _, fun _ => rfl⟩
  | @routine _ s₁ args _ hknown hargs hdeclared =>
    have hlinked := hargs.linked ((Module.extends_declared _ _ _).trans hm)
    have hsignature : m.signature? call.callee.name = some ⟨.void, args.map Prod.fst, false⟩ := by
      rw [Module.signature?, hserves.routine _ hknown]
      exact hm.externs _ _ hdeclared
    refine Lowering.Every.emitted (hargs.every (fun hcode => hcode.linked.1) hs)
      ⟨⟨_, hsignature, ?_⟩, hlinked⟩
    exact ⟨rfl, prefix_refl _, fun _ => rfl⟩

end Linking

section Performing

variable {ctx : Context} {printSymbol : String}

/-- A call that prints is done by an instruction, which is given the constant for the format if a
text is printed. -/
structure Module.PrintsBy (m : Module) (printSymbol : String) (c : Call) (i : Instr)
    (args : CallArgs) : Prop where
  span_eq : i.span = c.span
  operation_eq : i.operation = .call printSymbol .i32 args
  text : ∀ id span text, c.args = [.str id span text] → ∃ before : Module,
    (before.intern (Lower.printFormat text)).1.Extends m ∧
      args = [(.ptr, .address (before.intern (Lower.printFormat text)).2)]

/-- There is code for a call: an instruction if it prints, a declaration if it calls a routine from
outside. -/
structure Lowering.Performs (ctx : Context) (printSymbol : String) (s : Lowering) (c : Call) :
    Prop where
  print : c.callee.name = printName → ∃ i ∈ s.body, ∃ args, s.module.PrintsBy printSymbol c i args
  routine : c.callee.name ≠ printName → ctx.function? c.callee.name = none →
    ∃ params, s.module.externs.lookup c.callee.name = some ⟨.void, params, false⟩

theorem Module.PrintsBy.extends {m' : Module}
    (h : m.PrintsBy printSymbol c i args) (hm : m.Extends m') :
    m'.PrintsBy printSymbol c i args := by
  refine { h with text := fun id span text hargs => ?_ }
  obtain ⟨before, hbefore, heq⟩ := h.text id span text hargs
  exact ⟨before, hbefore.trans hm, heq⟩

theorem Lowering.Performs.grows (h : s.Performs ctx printSymbol c)
    (hs : s.Grows s') : s'.Performs ctx printSymbol c := by
  refine ⟨fun hname => ?_, fun hname hnone => ?_⟩
  · obtain ⟨i, hi, args, hprints⟩ := h.print hname
    exact ⟨i, hs.body hi, args, hprints.extends hs.module⟩
  · obtain ⟨params, hparams⟩ := h.routine hname hnone
    exact ⟨params, hs.module.externs _ _ hparams⟩

theorem LowersCall.performs {scope : List SymbolId}
    (h : LowersCall ctx printSymbol scope s c s') : s'.Performs ctx printSymbol c := by
  cases h with
  | printText hname hargs =>
    refine ⟨fun _ => ⟨_, mem_cons_self, _, rfl, rfl, fun id span text heq => ?_⟩,
      fun hne => absurd hname hne⟩
    cases hargs.symm.trans heq
    exact ⟨_, .refl _, rfl⟩
  | printNumber hname hargs hcode =>
    refine ⟨fun _ => ⟨_, mem_cons_self, _, rfl, rfl, fun id span text heq => ?_⟩,
      fun hne => absurd hname hne⟩
    cases hargs.symm.trans heq
    cases hcode with
    | number hcode | truth hcode => cases hcode
  | function hname hknown _ _ | main hname hknown _ _ =>
    refine ⟨fun heq => absurd heq hname, fun _ hnone => ?_⟩
    rw [hnone] at hknown
    contradiction
  | routine hname _ _ hdeclared =>
    exact ⟨fun heq => absurd heq hname, fun _ _ => ⟨_, hdeclared⟩⟩

mutual

/-- There is code for every call of a statement. -/
theorem LowersStmt.performs (st : Stmt) {scope scope' : List SymbolId} {s s' : Lowering}
    (h : LowersStmt ctx printSymbol scope s st s' scope') :
    ∀ c ∈ callsOfStmt st, s'.Performs ctx printSymbol c := by
  intro c hc
  match st, h with
  | .call _ _, .call hcall =>
    obtain rfl := mem_singleton.1 hc
    exact hcall.performs
  | .block body, .block hbody => exact LowersBlock.performs body hbody c hc
  | .ifElse _ _ thenBody none, .ifThen _ hthen =>
    exact (LowersBlock.performs thenBody hthen c hc).grows (.closed _ 0 _ _)
  | .ifElse _ _ thenBody (some elseBody), .ifElse _ hthen helse =>
    have hlast : ∀ t : Lowering, t.Grows (t.closed (.jump (s.nextBlock + 2)) (s.nextBlock + 2)) :=
      fun t => .closed t 0 _ _
    rcases mem_append.1 hc with hfirst | hsecond
    · have hrest := (Lowering.Grows.closed _ 0 _ _).trans (LowersBlock.grows elseBody helse)
      exact (LowersBlock.performs thenBody hthen c hfirst).grows (hrest.trans (hlast _))
    · exact (LowersBlock.performs elseBody helse c hsecond).grows (hlast _)
  | .whileLoop _ _ body, .whileLoop _ hbody =>
    exact (LowersBlock.performs body hbody c hc).grows (.closed _ 0 _ _)
  | .forIn _ _ _ (.range _ _ (.int _ _ count)) body, .forIn _ _ _ _ hcopies =>
    cases count with
    | zero => contradiction
    | succ n =>
      rw [callsOfStmt_forIn n.succ_ne_zero] at hc
      -- the first copy has the call, and the others keep it
      rw [range_succ_eq_map] at hcopies
      cases hcopies with
      | cons hbody hrest =>
        refine (LowersBlock.performs body hbody c hc).grows (hrest.keeps Lowering.Grows.refl
          (fun _ _ _ => Lowering.Grows.trans) fun _ _ _ _ hcopy => ?_)
        exact (Lowering.Grows.emitted _ _ _).trans (LowersBlock.grows body hcopy)
  | .cleanup _, .deferred haction hcall =>
    rw [callsOfStmt_deferred haction] at hc
    obtain rfl := mem_singleton.1 hc
    exact hcall.performs
  | .cleanup item, .cleanup hnone =>
    rw [callsOfStmt] at hc
    split at hc
    · rename_i call haction
      exact absurd haction (hnone call)
    · contradiction
    · contradiction
termination_by structural st

theorem LowersBlock.performs (b : BlockOf Stmt) {scope scope' : List SymbolId} {s s' : Lowering}
    (h : LowersBlock ctx printSymbol scope s b s' scope') :
    ∀ c ∈ callsOfBlock b, s'.Performs ctx printSymbol c := by
  match b, h with
  | ⟨_, _, stmts⟩, .mk hstmts => exact LowersStmts.performs stmts hstmts
termination_by structural b

theorem LowersStmts.performs (ss : List Stmt) {scope scope' : List SymbolId} {s s' : Lowering}
    (h : LowersStmts ctx printSymbol scope s ss s' scope') :
    ∀ c ∈ callsOfStmts ss, s'.Performs ctx printSymbol c := by
  intro c hc
  match ss, h with
  | [], .nil => contradiction
  | st :: ss, .cons hst hss =>
    rcases mem_append.1 hc with hfirst | hrest
    · exact (LowersStmt.performs st hst c hfirst).grows (LowersStmts.grows ss hss)
    · exact LowersStmts.performs ss hss c hrest
termination_by structural ss

end

end Performing

section Modules

variable {ctx : Context} {printSymbol : String} {m m' : Module} {fs : List DeferLang.Function}

/-- Something is printed, and a routine from outside is called by the name of the print routine,
which is not that of printing in programs. -/
def PrintTaken (printSymbol : String) (calls : List Call) : Prop :=
  printSymbol ≠ printName ∧ (∃ c ∈ calls, c.callee.name = printName) ∧
    ∃ c ∈ calls, c.callee.name = printSymbol

instance (printSymbol : String) (calls : List Call) : Decidable (PrintTaken printSymbol calls) :=
  inferInstanceAs (Decidable (_ ∧ _ ∧ _))

theorem function?_eq_none :
    ctx.function? name = none ↔ name ∉ ctx.functions.map FunctionInfo.name := by
  rw [Context.function?, List.find?_eq_none, mem_map]
  simp

/-- Only the print routine and what is no function of the program is declared. -/
theorem LowersFunctions.apart (h : LowersFunctions ctx printSymbol m fs m')
    (hm : m.externs = []) {s : Signature}
    (hs : m'.externs.lookup name = some s) : name = printSymbol ∨ ctx.function? name = none := by
  let Apart (m : Module) : Prop :=
    ∀ name s, m.externs.lookup name = some s → name = printSymbol ∨ ctx.function? name = none
  have hdeclared : ∀ m name s, name = printSymbol ∨ ctx.function? name = none → Apart m →
      Apart (m.declared name s) := by
    intro m name s hname hm n found hfound
    rw [m.lookup_declared] at hfound
    split at hfound
    · rename_i hn
      exact hn ▸ hname
    · exact hm n found hfound
  have hkept : Module.Kept ctx printSymbol Apart (callsOf fs) :=
    ⟨fun m hm => hdeclared m _ _ (.inl rfl) hm,
      fun m call _ _ hnone params hm => hdeclared m _ _ (.inr hnone) hm,
      fun m text hm n found hfound => hm n found (m.externs_intern text ▸ hfound)⟩
  refine h.keeps_module hkept (fun _ _ _ hm => hm) ?_ name s hs
  intro n found hfound
  rw [hm] at hfound
  contradiction

/-- The print routine is declared with its own signature, unless its name is taken. -/
theorem LowersFunctions.printDeclared (h : LowersFunctions ctx printSymbol m fs m')
    (hm : m.externs = []) (hfree : ¬PrintTaken printSymbol (callsOf fs))
    (hc : c ∈ callsOf fs) (hname : c.callee.name = printName) : m'.PrintDeclared printSymbol := by
  have hkept : Module.Kept ctx printSymbol (·.PrintDeclared printSymbol) (callsOf fs) := by
    refine ⟨fun m hm s hs => ?_, fun m call hcall hne _ params hm s hs => ?_,
      fun m text hm s hs => hm s (m.externs_intern text ▸ hs)⟩
    · rw [m.lookup_declared, if_pos rfl] at hs
      cases hfound : m.externs.lookup printSymbol with
      | none =>
        rw [hfound] at hs
        exact (Option.some.inj hs).symm
      | some found =>
        rw [hfound] at hs
        exact hm s (hfound.trans hs)
    · -- a routine of that name would take it
      have hother : printSymbol ≠ call.callee.name := fun heq =>
        hfree ⟨heq ▸ hne, ⟨c, hc, hname⟩, call, hcall, heq.symm⟩
      rw [m.lookup_declared, if_neg hother] at hs
      exact hm s hs
  refine h.keeps_module hkept (fun _ _ _ hm => hm) fun s hs => ?_
  rw [hm] at hs
  contradiction

theorem IsCodeOf.result_eq {f : DeferLang.Function} {code : Function}
    (h : IsCodeOf ctx printSymbol m f code) : code.result = resultType f.name.name := by
  obtain ⟨before, s, inner, hbody, -, rfl⟩ := h
  have hresult : s.finished.result = s.result := by
    unfold Lowering.finished
    split
    · rfl
    · rfl
  exact hresult.trans (LowersBlock.grows f.body hbody).result

variable (h : LowersFunctions ctx printSymbol m fs m') (hm : m.functions = [])
  (hnames : ctx.functions.map FunctionInfo.name = fs.map (·.name.name))
  (hnodup : (fs.map (·.name.name)).Nodup)

include h hm hnames hnodup in
/-- The module has the functions that calls ask for. -/
theorem LowersFunctions.serves : m'.Serves ctx printSymbol := by
  have hlookup : ∀ name, name ∉ fs.map (·.name.name) → m'.functions.lookup name = none := by
    intro name hname
    rw [h.lookup_of_not_mem hname, hm]
    rfl
  refine ⟨fun name hsome => ?_, fun name hnone => ?_, hlookup _ fun hmem => ?_⟩
  · have hmem : name ∈ fs.map (·.name.name) := by
      rw [← hnames]
      by_contra hnot
      rw [function?_eq_none.2 hnot] at hsome
      contradiction
    obtain ⟨f, hf, rfl⟩ := mem_map.1 hmem
    obtain ⟨code, hcode, hcodeOf⟩ := h.lookup hnodup f hf
    rw [Module.signature?, hcode]
    dsimp only
    rw [hcodeOf.result_eq]
  · exact hlookup name (hnames ▸ function?_eq_none.1 hnone)
  · obtain ⟨f, hf, heq⟩ := mem_map.1 hmem
    exact h.ne_print f hf heq

include h hm hnames hnodup in
/-- Lowered functions are linked, unless the name of the print routine is taken. -/
theorem LowersFunctions.linked (hexterns : m.externs = [])
    (hfree : ¬PrintTaken printSymbol (callsOf fs)) :
    ∀ entry ∈ m'.functions, entry.2.Linked m' entry.1 := by
  intro entry hentry
  have hserves := h.serves hm hnames hnodup
  rcases h.isCodeOf_of_mem entry hentry with hold | ⟨f, hf, hname, hcode⟩
  · rw [hm] at hold
    contradiction
  refine ⟨?_, ?_, ?_, hcode.every (fun hcode => hcode.linked.1)
    (fun _ _ _ _ hx => Operand.linked_of_ne_address hx) (fun i hslot => ?_)
    fun hc hcall hm => hcall.linked hserves hm fun hprint => ?_⟩
  · rw [Option.eq_none_iff_forall_ne_some]
    intro signature hsome
    rcases h.apart hexterns hsome with hprint | hnone
    · exact h.ne_print f hf (hname.symm.trans hprint)
    · refine function?_eq_none.1 hnone ?_
      rw [hnames, hname]
      exact mem_map_of_mem hf
  · obtain ⟨_, _, _, _, _, hentry'⟩ := hcode
    rw [hentry', hname]
    rfl
  · rw [hcode.result_eq]
    unfold resultType
    split
    · exact ValueType.noConfusion
    · exact ValueType.noConfusion
  · obtain ⟨type, hop⟩ := Instr.isSlot_eq_true.1 hslot
    rw [hop]
    trivial
  · exact h.printDeclared hexterns hfree (mem_flatMap.2 ⟨f, hf, hc⟩) hprint

include h hnodup in
/-- There is code in the module for every call. -/
theorem LowersFunctions.performs (hc : c ∈ callsOf fs) :
    (c.callee.name = printName → ∃ entry ∈ m'.functions, ∃ i ∈ entry.2.instrs,
      ∃ args, m'.PrintsBy printSymbol c i args) ∧
    (c.callee.name ≠ printName → ctx.function? c.callee.name = none →
      ∃ params, m'.externs.lookup c.callee.name = some ⟨.void, params, false⟩) := by
  obtain ⟨f, hf, hc⟩ := mem_flatMap.1 hc
  obtain ⟨code, hcode, before, s, inner, hbody, hextends, rfl⟩ := h.lookup hnodup f hf
  have hperforms := LowersBlock.performs f.body hbody c hc
  refine ⟨fun hname => ?_, fun hname hnone => ?_⟩
  · obtain ⟨i, hi, args, hprints⟩ := hperforms.print hname
    obtain ⟨front, back, hentries, -⟩ := lookup_eq_some_iff.1 hcode
    have hfits := LowersBlock.fits f.body hbody (Lowering.fits_start before f.name.name)
    refine ⟨_, hentries ▸ mem_append_right front mem_cons_self, i, ?_, args,
      hprints.extends hextends⟩
    exact (hfits.perm_instrs_code f).mem_iff.2 (mem_append_right _ hi)
  · obtain ⟨params, hparams⟩ := hperforms.routine hname hnone
    exact ⟨params, hextends.externs _ _ hparams⟩

include h hm hnames hnodup in
/-- Lowered functions are accepted, unless the name of the print routine is taken. -/
theorem LowersFunctions.verify_iff (hexterns : m.externs = []) :
    m'.verify = .ok () ↔ ¬PrintTaken printSymbol (callsOf fs) := by
  refine ⟨fun hverify htaken => ?_, fun hfree => verify_eq_ok fun entry hentry => ?_⟩
  · obtain ⟨hne, ⟨c, hc, hprint⟩, c', hc', hname⟩ := htaken
    obtain ⟨entry, hentry, i, hi, args, hprints⟩ := (h.performs hnodup hc).1 hprint
    obtain ⟨s, hs, hresult⟩ := signature?_of_verify hverify hentry hi hprints.operation_eq
    have hserves := h.serves hm hnames hnodup
    have hnone : ctx.function? c'.callee.name = none := by
      refine function?_eq_none.2 fun hmem => ?_
      rw [hnames, hname] at hmem
      obtain ⟨f, hf, heq⟩ := mem_map.1 hmem
      exact h.ne_print f hf heq
    obtain ⟨params, hparams⟩ := (h.performs hnodup hc').2 (hname ▸ hne) hnone
    rw [Module.signature?, hserves.print, ← hname] at hs
    obtain rfl := Option.some.inj (hparams.symm.trans hs)
    contradiction
  · refine ⟨?_, h.linked hm hnames hnodup hexterns hfree entry hentry⟩
    rcases h.isCodeOf_of_mem entry hentry with hold | ⟨f, -, -, hcode⟩
    · rw [hm] at hold
      contradiction
    · exact hcode.wellFormed

end Modules

end Code

namespace Source

/-- The calls of a source with its cleanup. -/
def calls (s : Source) : List Call :=
  Code.callsOf s.planned.1.program.functions

/-- The code of a checked source is accepted, unless the name of the print routine is taken. -/
theorem verify_lowerProgram_iff (s : Source)
    (hclean : ∀ e ∈ s.program.check.2, e.fault.severity ≠ .error) (options : Code.LowerOptions)
    (name : String)
    (herrors : (Code.lowerProgram s.context options name s.planned.1.program).2 = []) :
    (Code.lowerProgram s.context options name s.planned.1.program).1.verify = .ok () ↔
      ¬Code.PrintTaken options.printSymbol s.calls := by
  refine (s.lowersFunctions_planned hclean options name herrors).verify_iff rfl ?_
    (s.nodup_functionNames_planned hclean) rfl
  rw [s.functionNames_planned]
  exact (typesProgram_check hclean).functions_eq

end Source

section Compilation

/-- No diagnostic says that the target code did not verify. -/
def Diagnostics.Verified (ds : Diagnostics) : Prop :=
  ∀ d ∈ ds, d.code ≠ Code.verifyCode

namespace Diagnostics

theorem Verified.deny {ds : Diagnostics} (h : ds.Verified) (o : Options) :
    (Artifacts.deny o ds).Verified :=
  Artifacts.forall_deny (fun _ hd => hd) h

theorem Verified.status {ds : Diagnostics} (h : ds.Verified) :
    Status.ofDiagnostics ds ≠ .unverified := by
  have hnone : ds.any (·.code = Code.verifyCode) = false := by
    rw [any_eq_false]
    exact fun d hd hcode => h d hd (of_decide_eq_true hcode)
  unfold Status.ofDiagnostics
  rw [hnone]
  split
  · exact Status.noConfusion
  · split
    · contradiction
    · split
      · exact Status.noConfusion
      · exact Status.noConfusion

end Diagnostics

end Compilation

end DeferLang
