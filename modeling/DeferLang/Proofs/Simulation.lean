import DeferLang.Proofs.Machine
import DeferLang.Proofs.VerifiedCode

/-!
# Lowered code does what its program does

The machine follows the run of a function, statement by statement.  At the boundary of two
statements it stands in the block that lowering was filling there, behind the instructions
that were made up to there (`Code.Target.At`), and the slot of every variable in scope holds
its value (`Code.Target.Memory`).

What a statement does, the machine does in a number of steps (`Code.Simulates`): it performs
the same calls, and stands behind the statement, returns, or is stuck.  Where the run is out
of fuel, the machine has made at least as many steps as there was fuel.
-/

namespace DeferLang

open List

namespace Code

variable {b : BasicBlock} {s s' : Lowering} {k : Nat} {x : Operand} {store : Store} {var : SymbolId}
  {v : Value} {slot : ValueId} {type : ValueType} {w : Word}

section Words

variable {v : Value}

/-- The value of a program that a word stands for. -/
def Word.value? : Word → Option Value
  | .number n => some (.number n.toInt)
  | .bit b => some (.truth b)
  | .address _ => none

/-- A word of a type stands for a value. -/
def Word.Holds (w : Word) (type : ValueType) (v : Value) : Prop :=
  w.type = type ∧ w.value? = some v

theorem Word.holds_i32 (h : w.Holds .i32 v) :
    ∃ n, w = .number n ∧ v = .number n.toInt := by
  cases w with
  | number n => exact ⟨n, rfl, (Option.some.inj h.2).symm⟩
  | bit b | address name => cases h.1

theorem Word.holds_i1 (h : w.Holds .i1 v) : ∃ b, w = .bit b ∧ v = .truth b := by
  cases w with
  | number n => cases h.1
  | bit b => exact ⟨b, rfl, (Option.some.inj h.2).symm⟩
  | address name => cases h.1

theorem Operator.Takes.eq_or {op : Operator} (h : op.Takes type) :
    type = .i32 ∨ type = .i1 := by
  cases op with
  | and => exact .inr h
  | eq | ne => exact h
  | _ => exact .inl h

/-- Division is stuck for the same numbers. -/
theorem canDivide_toInt (a b : Int32) :
    canDivide a.toInt b.toInt ↔ ¬(b = 0 ∨ (a = Int32.minValue ∧ b = -1)) := by
  have hzero : b.toInt = 0 ↔ b = 0 := Int32.toInt_inj (y := 0)
  have hone : b.toInt = -1 ↔ b = -1 := Int32.toInt_inj (y := -1)
  rw [canDivide, not_or, Int32.toInt_inj, hone, ne_eq, hzero]

/-- A quotient that is defined fits into 32 bits. -/
theorem toInt_div_of_canDivide {a b : Int32} (h : canDivide a.toInt b.toInt) :
    (a / b).toInt = a.toInt.tdiv b.toInt := by
  have hcases := not_or.1 ((canDivide_toInt a b).1 h)
  by_cases ha : a = Int32.minValue
  · exact Int32.toInt_div_of_ne_right a b fun hb => hcases.2 ⟨ha, hb⟩
  · exact Int32.toInt_div_of_ne_left a b ha

theorem divided_agrees {a b q : Int32} {z : Int} (h : canDivide a.toInt b.toInt → q.toInt = z) :
    Option.Rel (Word.Holds · .i32)
      (if b = 0 ∨ (a = Int32.minValue ∧ b = -1) then none else some (Word.number q))
      (if canDivide a.toInt b.toInt then some (Value.number z) else none) := by
  by_cases hdiv : canDivide a.toInt b.toInt
  · rw [if_neg ((canDivide_toInt a b).1 hdiv), if_pos hdiv]
    exact .some ⟨rfl, congrArg (some ∘ Value.number) (h hdiv)⟩
  · rw [if_pos (not_not.1 (mt (canDivide_toInt a b).2 hdiv)), if_neg hdiv]
    exact .none

theorem onNumbers_agrees (op : BinOp) (a b : Int32) :
    Option.Rel (Word.Holds · ((operatorOf op).result .i32))
      ((operatorOf op).onNumbers a b) (op.onNumbers a.toInt b.toInt) := by
  cases op with
  | add => exact .some ⟨rfl, congrArg (some ∘ Value.number) (Int32.toInt_add a b)⟩
  | sub => exact .some ⟨rfl, congrArg (some ∘ Value.number) (Int32.toInt_sub a b)⟩
  | mul => exact .some ⟨rfl, congrArg (some ∘ Value.number) (Int32.toInt_mul a b)⟩
  | div => exact divided_agrees toInt_div_of_canDivide
  | rem => exact divided_agrees fun _ => Int32.toInt_mod a b
  | eq | ne => exact .some ⟨rfl, by simp [Word.value?, Int32.toInt_inj]⟩
  | lt | gt => exact .some ⟨rfl, by simp [Word.value?, Int32.lt_iff_toInt_lt]⟩
  | le | ge => exact .some ⟨rfl, by simp [Word.value?, Int32.le_iff_toInt_le]⟩
  | and => exact .none

theorem onBits_agrees (op : BinOp) (a b : Bool) :
    Option.Rel (Word.Holds · ((operatorOf op).result .i1))
      ((operatorOf op).onBits a b) (op.onTruths a b) := by
  cases op with
  | eq | ne | and => exact .some ⟨rfl, rfl⟩
  | _ => exact .none

/-- An operator does the same to words as to the values they stand for. -/
theorem apply_agrees {op : BinOp} (htakes : (operatorOf op).Takes type)
    {a b : Word} {u : Value} (ha : a.Holds type v) (hb : b.Holds type u) :
    Option.Rel (Word.Holds · ((operatorOf op).result type)) ((operatorOf op).apply a b)
      (op.apply v u) := by
  rcases htakes.eq_or with rfl | rfl
  · obtain ⟨n, rfl, rfl⟩ := Word.holds_i32 ha
    obtain ⟨n', rfl, rfl⟩ := Word.holds_i32 hb
    exact onNumbers_agrees op n n'
  · obtain ⟨x, rfl, rfl⟩ := Word.holds_i1 ha
    obtain ⟨y, rfl, rfl⟩ := Word.holds_i1 hb
    exact onBits_agrees op x y

end Words

/-- A function whose code is known, in a module, with the instructions that make its slots. -/
structure Target where
  module : Module
  function : Function
  slots : List Instr
  wellFormed : function.WellFormed
  entry : function.entry = entryBlock

namespace Target

variable {t : Target}

theorem block_eq (t : Target) {b' : BasicBlock} (hb : b ∈ t.function.blocks)
    (hb' : b' ∈ t.function.blocks) (hid : b.id = b'.id) : b = b' :=
  inj_on_of_nodup_map t.wellFormed.blocks_nodup hb hb' hid

theorem block?_eq (t : Target) (hb : b ∈ t.function.blocks) :
    t.function.block? b.id = some b :=
  find?_key BasicBlock.id t.wellFormed.blocks_nodup hb

end Target

/-- The slots stand in front of the entry block. -/
def lead (slots : List Instr) (id : BlockId) : List Instr :=
  if id = entryBlock then slots else []

theorem instrs_withSlotsAt (slots : List Instr) (b : BasicBlock) :
    (withSlotsAt slots b).instrs = lead slots b.id ++ b.instrs := by
  unfold withSlotsAt lead
  split
  · rfl
  · rfl

/-- A state of lowering from which the function was made. -/
structure Lowering.LeadsTo (s : Lowering) (t : Target) : Prop where
  closed : ∀ b ∈ s.blocks, withSlotsAt t.slots b ∈ t.function.blocks
  current : ∀ b ∈ t.function.blocks, b.id = s.current →
    lead t.slots b.id ++ s.instrs.reverse <+: b.instrs
  slotInstrs : s.slotInstrs ⊆ t.slots
  result : s.result = t.function.result
  module : s.module.Extends t.module

/-- Earlier states lead to the function too. -/
theorem Lowering.Grows.leadsTo {t : Target} (h : s.Grows s')
    (hs' : s'.LeadsTo t) : s.LeadsTo t := by
  refine ⟨fun b hb => hs'.closed b (h.blocks.subset hb), fun b hb hid => ?_,
    List.Subset.trans h.slotInstrs.subset hs'.slotInstrs, h.result.symm.trans hs'.result,
    h.module.trans hs'.module⟩
  rcases h.current with ⟨hcurrent, hinstrs⟩ | ⟨b', hb', hid', hinstrs⟩
  · refine List.IsPrefix.trans ?_ (hs'.current b hb (hid.trans hcurrent.symm))
    exact (prefix_append_right_inj _).2 (List.reverse_prefix.2 hinstrs)
  · have hmem := hs'.closed b' hb'
    have heq : b = withSlotsAt t.slots b' :=
      t.block_eq hb hmem (by rw [id_withSlotsAt, hid, hid'])
    rw [heq, instrs_withSlotsAt, id_withSlotsAt]
    exact (prefix_append_right_inj _).2 hinstrs

namespace Lowering.LeadsTo

variable {s : Lowering} {t : Target}

theorem of_emitted {span : Span} {operation : Operation}
    (h : (s.emitted span operation).LeadsTo t) : s.LeadsTo t :=
  (Grows.emitted s span operation).leadsTo h

theorem of_computed {code : List Instr} (h : (s.computed code).LeadsTo t) : s.LeadsTo t :=
  (Grows.computed s code).leadsTo h

theorem of_closed {term : Terminator} {next : BlockId} (h : (s.closed term next).LeadsTo t) :
    s.LeadsTo t :=
  (Grows.closed s 0 term next).leadsTo h

theorem of_reserved {count : Nat} (h : (s.reserved count).LeadsTo t) : s.LeadsTo t :=
  ⟨h.closed, h.current, h.slotInstrs, h.result, h.module⟩

end Lowering.LeadsTo

section Places

variable {t : Target} {s s' : Lowering} {F F' : Frame}

/-- The machine stands where lowering was: behind the instructions of the block that was filled. -/
structure Target.At (t : Target) (s : Lowering) (F : Frame) : Prop where
  function : F.function = t.function
  block : ∃ b ∈ t.function.blocks, b.id = s.current ∧ b.term = F.term ∧
    b.instrs = lead t.slots b.id ++ (s.instrs.reverse ++ F.code)

/-- Of a frame only its place in the code changes, and values from a number on. -/
structure Frame.Moved (F : Frame) (first : ValueId) (rest : List Instr) (F' : Frame) : Prop where
  function : F'.function = F.function
  term : F'.term = F.term
  code : F'.code = rest
  cells : F'.cells = F.cells
  values : ∀ id < first, F'.values id = F.values id

/-- The instructions that lowering makes next are next to run. -/
theorem Target.At.code_eq (h : t.At s F) (hs' : s'.LeadsTo t) (code : List Instr)
    (hcurrent : s'.current = s.current) (hinstrs : s'.instrs = code.reverse ++ s.instrs) :
    ∃ rest, F.code = code ++ rest ∧ ∀ F', F'.function = F.function → F'.term = F.term →
      F'.code = rest → t.At s' F' := by
  obtain ⟨b, hb, hid, hterm, hcode⟩ := h.block
  obtain ⟨rest, hrest⟩ := hs'.current b hb (hid.trans hcurrent.symm)
  have hsplit : F.code = code ++ rest := by
    rw [hcode, hinstrs, reverse_append, reverse_reverse, append_assoc, append_assoc] at hrest
    exact (append_cancel_left (append_cancel_left hrest)).symm
  refine ⟨rest, hsplit, fun F' hfunction hterm' hcode' => ⟨hfunction.trans h.function, b, hb,
    hid.trans hcurrent.symm, hterm.trans hterm'.symm, ?_⟩⟩
  rw [← hrest, hcode', append_assoc]

/-- At the end of a block, nothing is left of it. -/
theorem Target.At.closed (h : t.At s F) {count : Nat} {term : Terminator} {next : BlockId}
    (hs' : ((s.reserved count).closed term next).LeadsTo t) : F.code = [] ∧ F.term = term := by
  obtain ⟨b, hb, hid, hterm, hcode⟩ := h.block
  have hmem := hs'.closed _ mem_cons_self
  have heq := t.block_eq hb hmem (by rw [id_withSlotsAt]; exact hid)
  constructor
  · rw [heq, instrs_withSlotsAt, id_withSlotsAt] at hcode
    have hinstrs := append_cancel_left hcode
    exact self_eq_append_right.1 hinstrs
  · rw [← hterm, heq, term_withSlotsAt]

/-- The start of a block other than the first. -/
theorem Target.At.enter (hfunction : F.function = t.function)
    (hb : b ∈ t.function.blocks) (hid : b.id = s.current) (hne : b.id ≠ entryBlock)
    (hinstrs : s.instrs = []) : t.At s (F.enter b) := by
  refine ⟨hfunction, b, hb, hid, rfl, ?_⟩
  rw [lead, if_neg hne, hinstrs]
  rfl

end Places

section Memory

variable {t : Target} {slots : Slots} {scope : List SymbolId} {store : Store} {F F' : Frame}

/-- The slots of a function are there, and those of the variables in scope hold their values. -/
structure Target.Memory (t : Target) (slots : Slots) (scope : List SymbolId) (store : Store)
    (F : Frame) : Prop where
  allocated : ∀ i ∈ t.slots, ∀ id type, i.slot? = some (id, type) →
    ∃ content, F.cells id = some ⟨type, content⟩
  symbols : ∀ symbol ∈ scope, ∃ slot type w v, slots.lookup symbol = some (slot, type) ∧
    F.cells slot = some ⟨type, some w⟩ ∧ store symbol = some v ∧ w.Holds type v

namespace Target.Memory

theorem mono (h : t.Memory slots scope store F) {scope' : List SymbolId} (hsub : scope' ⊆ scope) :
    t.Memory slots scope' store F :=
  ⟨h.allocated, fun symbol hsymbol => h.symbols symbol (hsub hsymbol)⟩

theorem of_lookup (h : t.Memory slots scope store F) {slots' : Slots}
    (hslots : ∀ symbol ∈ scope, slots'.lookup symbol = slots.lookup symbol) :
    t.Memory slots' scope store F := by
  refine ⟨h.allocated, fun symbol hsymbol => ?_⟩
  rw [hslots symbol hsymbol]
  exact h.symbols symbol hsymbol

theorem of_cells (h : t.Memory slots scope store F) (hcells : F'.cells = F.cells) :
    t.Memory slots scope store F' := by
  refine ⟨?_, ?_⟩
  · rw [hcells]
    exact h.allocated
  · rw [hcells]
    exact h.symbols

/-- A value is stored in the slot of a variable, which is that of no other variable. -/
theorem set (h : t.Memory slots scope store F) (hslot : slots.lookup var = some (slot, type))
    (hapart : ∀ symbol ∈ scope, ∀ type', slots.lookup symbol = some (slot, type') → symbol = var)
    (hcell : ∃ content, F.cells slot = some ⟨type, content⟩) (hw : w.Holds type v) :
    t.Memory slots (var :: scope) (store.set var v) (F.setCell slot ⟨type, some w⟩) := by
  refine ⟨fun i hi id type' hid => ?_, fun symbol hsymbol => ?_⟩
  · by_cases heq : id = slot
    · obtain ⟨content, hcontent⟩ := h.allocated i hi id type' hid
      obtain ⟨content', hcontent'⟩ := hcell
      rw [heq, hcontent'] at hcontent
      obtain rfl := (Cell.mk.inj (Option.some.inj hcontent)).1
      exact ⟨some w, if_pos heq⟩
    · obtain ⟨content, hcontent⟩ := h.allocated i hi id type' hid
      exact ⟨content, (if_neg heq).trans hcontent⟩
  · by_cases heq : symbol = var
    · refine ⟨slot, type, w, v, heq ▸ hslot, if_pos rfl, if_pos heq, hw⟩
    · have hscope := (mem_cons.1 hsymbol).resolve_left heq
      obtain ⟨slot', type', w', v', hlookup, hcell', hstore, hw'⟩ := h.symbols symbol hscope
      refine ⟨slot', type', w', v', hlookup, ?_, (if_neg heq).trans hstore, hw'⟩
      refine (if_neg fun hslot' => heq (hapart symbol hscope type' ?_)).trans hcell'
      rw [hlookup, hslot']

end Target.Memory

/-- Every variable has a slot of its own. -/
def Lowering.SlotsApart (s : Lowering) : Prop :=
  Numbered (s.slots.map (·.2.1)) s.nextValue

theorem Lowering.Grows.slotsApart (h : s.Grows s') (hs : s.SlotsApart) :
    s'.SlotsApart := by
  obtain ⟨new, hslots, hnodup, hnew⟩ := h.slots
  rw [SlotsApart, hslots, map_append]
  refine ⟨nodup_append.2 ⟨hnodup, hs.nodup, fun id hid id' hid' heq => ?_⟩, ?_⟩
  · obtain ⟨entry, hentry, rfl⟩ := mem_map.1 hid
    exact Nat.not_lt.2 (hnew entry hentry).1 (heq ▸ hs.lt id' hid')
  · refine forall_mem_append.2 ⟨?_, fun id hid => ?_⟩
    · exact forall_mem_map.2 fun entry hentry => (hnew entry hentry).2
    · exact Nat.lt_of_lt_of_le (hs.lt id hid) h.nextValue

theorem Lowering.SlotsApart.computed (h : s.SlotsApart) (code : List Instr) :
    (s.computed code).SlotsApart :=
  (Grows.computed s code).slotsApart h

theorem Lowering.SlotsApart.withSlot (h : s.SlotsApart) (var : SymbolId)
    (type : ValueType) (span : Span) : (s.withSlot var type span).SlotsApart :=
  (Grows.withSlot s var type span).slotsApart h

theorem mem_of_lookup {slots : Slots} {symbol : SymbolId}
    (h : slots.lookup symbol = some (slot, type)) : (symbol, slot, type) ∈ slots := by
  obtain ⟨front, back, hentries, -⟩ := lookup_eq_some_iff.1 h
  exact hentries ▸ mem_append_right front mem_cons_self

theorem Lowering.SlotsApart.eq_of_lookup (h : s.SlotsApart) {symbol : SymbolId}
    {type' : ValueType} (hsymbol : s.slots.lookup symbol = some (slot, type'))
    (hvar : s.slots.lookup var = some (slot, type)) : symbol = var :=
  congrArg Prod.fst
    (inj_on_of_nodup_map h.nodup (mem_of_lookup hsymbol) (mem_of_lookup hvar) rfl)

end Memory

/-- At the boundary of two statements. -/
structure Target.Meets (t : Target) (s : Lowering) (scope : List SymbolId) (store : Store)
    (F : Frame) : Prop where
  at_ : t.At s F
  memory : t.Memory s.slots scope store F

/-- A frame is about to return from a function with a result of a type. -/
def Frame.Returns (F : Frame) (result : ValueType) : Prop :=
  F.code = [] ∧ F.term = Lower.returnTerm result

/-- Where the machine is after a number of steps, when a run goes on like this. -/
def Reaches (m : Module) (result : ValueType) (callers : Callers)
    (least : Nat) (Q : Store → Frame → Prop) (k : Nat) (c : Config) : Flow → Prop
  | .next store => ∃ F, c = ⟨F, callers⟩ ∧ Q store F
  | .returned => ∃ F, c = ⟨F, callers⟩ ∧ F.Returns result
  | .stuck => m.step c = .ended .stuck
  | .outOfFuel => least ≤ k

theorem Reaches.mono {m : Module} {result : ValueType} {callers : Callers}
    {least least' : Nat} {Q : Store → Frame → Prop} {k' : Nat} {c : Config} {flow : Flow}
    (h : Reaches m result callers least Q k c flow) (hle : least ≤ k → least' ≤ k') :
    Reaches m result callers least' Q k' c flow := by
  cases flow with
  | outOfFuel => exact hle h
  | _ => exact h

/-- The machine does from a frame on what a piece of program does, and is then in a frame that is
related to the store.  If the program is out of fuel, the machine makes at least `least` steps. -/
def Simulates (m : Module) (result : ValueType) (callers : Callers)
    (least : Nat) (Q : Store → Frame → Prop) (F : Frame) (e : Effect) : Prop :=
  ∃ k c, Steps m k e.calls ⟨F, callers⟩ c ∧ Reaches m result callers least Q k c e.flow

namespace Simulates

variable {m : Module} {result : ValueType} {callers : Callers}
  {least : Nat} {Q : Store → Frame → Prop} {F F' : Frame} {e : Effect}

theorem next (h : Q store F) : Simulates m result callers least Q F (.next store) :=
  ⟨0, _, .refl _, F, rfl, h⟩

theorem stuck (h : m.step ⟨F, callers⟩ = .ended .stuck) :
    Simulates m result callers least Q F .stuck :=
  ⟨0, _, .refl _, h⟩

theorem returned (h : F.Returns result) : Simulates m result callers least Q F ⟨[], .returned⟩ :=
  ⟨0, _, .refl _, F, rfl, h⟩

theorem perform {call : ExternalCall}
    (hstep : m.step ⟨F, callers⟩ = .running [call] ⟨F', callers⟩) (h : Q store F') :
    Simulates m result callers least Q F (.perform call store) :=
  ⟨1, _, .step hstep (.refl _), F', rfl, h⟩

theorem mono (h : Simulates m result callers least Q F e) {least' : Nat} (hle : least' ≤ least) :
    Simulates m result callers least' Q F e := by
  obtain ⟨k, c, hsteps, hreaches⟩ := h
  exact ⟨k, c, hsteps, hreaches.mono (Nat.le_trans hle)⟩

/-- Steps may come first, and they count. -/
theorem afterSteps (hsteps : Steps m k [] ⟨F, callers⟩ ⟨F', callers⟩)
    (h : Simulates m result callers least Q F' e) :
    Simulates m result callers (least + k) Q F e := by
  obtain ⟨k', c, hsteps', hreaches⟩ := h
  exact ⟨k' + k, c, Nat.add_comm k k' ▸ hsteps.trans hsteps',
    hreaches.mono fun hle => Nat.add_le_add_right hle k⟩

theorem after (hsteps : Steps m k [] ⟨F, callers⟩ ⟨F', callers⟩)
    (h : Simulates m result callers least Q F' e) : Simulates m result callers least Q F e :=
  (h.afterSteps hsteps).mono (Nat.le_add_right least k)

/-- One piece of program may follow another. -/
theorem andThen (h : Simulates m result callers least Q F e) {Q' : Store → Frame → Prop}
    {f : Store → Effect}
    (hf : ∀ store F', Q store F' → Simulates m result callers least Q' F' (f store)) :
    Simulates m result callers least Q' F (e.andThen f) := by
  obtain ⟨k, c, hsteps, hreaches⟩ := h
  unfold Effect.andThen
  cases hflow : e.flow with
  | next store =>
    rw [hflow] at hreaches
    obtain ⟨F', rfl, hF'⟩ := hreaches
    obtain ⟨k', c', hsteps', hreaches'⟩ := hf store F' hF'
    exact ⟨k + k', c', hsteps.trans hsteps',
      hreaches'.mono fun hle => Nat.le_trans hle (Nat.le_add_left k' k)⟩
  | _ =>
    rw [hflow] at hreaches
    refine ⟨k, c, hsteps, ?_⟩
    rw [hflow]
    exact hreaches

/-- More may happen behind a piece of program. -/
theorem trans (h : Simulates m result callers least Q F e) {Q' : Store → Frame → Prop}
    (hQ : ∀ store F', Q store F' → Simulates m result callers least Q' F' (.next store)) :
    Simulates m result callers least Q' F e :=
  e.andThen_next ▸ h.andThen hQ

end Simulates

section Expressions

variable {m : Module} {callers : Callers} {F : Frame} {rest : List Instr}

/-- An instruction that is no call changes the frame only. -/
theorem step_eq_ofFrame? {i : Instr} (hcode : F.code = i :: rest)
    (hop : ∀ callee result args, i.operation ≠ .call callee result args) :
    m.step ⟨F, callers⟩ =
      .ofFrame? callers (({ F with code := rest } : Frame).after? i.dest i.operation) := by
  unfold Module.step
  dsimp only
  rw [hcode]
  dsimp only
  unfold Module.perform
  split
  · rename_i callee result args hcall
    exact absurd hcall (hop callee result args)
  · rfl

/-- An operand is defined before a value. -/
def Operand.Below (x : Operand) (first : ValueId) : Prop :=
  ∀ id, x = .value id → id < first

theorem Frame.Moved.word?_eq {first : ValueId} {F' : Frame} (h : F.Moved first rest F')
    (hx : x.Below first) : F'.word? x = F.word? x := by
  cases x with
  | value id => exact h.values id (hx id rfl)
  | _ => rfl

theorem Frame.typed?_of_holds
    (hx : F.word? x = some w) (hw : w.Holds type v) : F.typed? type x = some w := by
  rw [typed?, hx]
  exact if_pos (decide_eq_true hw.1)

theorem Frame.after?_binary {id : ValueId} {op : Operator} {l r : Operand}
    {a b : Word} (hl : F.typed? type l = some a) (hr : F.typed? type r = some b) :
    F.after? (some id) (.binary op type l r) = (op.apply a b).map fun w => F.setValue id w := by
  rw [after?, Option.bind_some, hl, Option.bind_some, hr, Option.bind_some]

variable {ctx : Context} {scope : List SymbolId} {t : Target} {slots : Slots} {first : ValueId}
  {e : Expr} {code : List Instr} {x : Operand} {type : ValueType}

theorem Computes.operand_below (h : Computes ctx scope slots first e code x type) :
    x.Below (first + code.length) := by
  intro id hid
  cases h with
  | int _ | bool => cases hid
  | var _ _ _ =>
    cases hid
    exact Nat.lt_succ_self _
  | binary _ _ _ =>
    cases hid
    rw [length_append, length_append, ← Nat.add_assoc, ← Nat.add_assoc]
    exact Nat.lt_succ_self _

/-- The instructions for an expression run to its value, or are stuck where it has none. -/
def Frame.Evaluates (m : Module) (callers : Callers) (F : Frame) (first : ValueId)
    (rest : List Instr) (x : Operand) (type : ValueType) (v : Option Value) : Prop :=
  ∃ k F', Steps m k [] ⟨F, callers⟩ ⟨F', callers⟩ ∧
    ((∃ w u, v = some u ∧ F'.word? x = some w ∧ w.Holds type u ∧ F.Moved first rest F') ∨
      (v = none ∧ m.step ⟨F', callers⟩ = .ended .stuck))

/-- Without instructions nothing moves. -/
theorem Frame.evaluates_const (hcode : F.code = rest)
    (hx : F.word? x = some w) (hw : w.Holds type v) :
    F.Evaluates m callers first rest x type (some v) :=
  ⟨0, F, .refl _, .inl ⟨w, v, rfl, hx, hw, rfl, rfl, hcode, rfl, fun _ _ => rfl⟩⟩

theorem Computes.evaluates (h : Computes ctx scope slots first e code x type)
    (hcode : F.code = code ++ rest) (hmem : t.Memory slots scope store F) :
    F.Evaluates m callers first rest x type (eval ctx store e) := by
  induction h generalizing F rest with
  | @int first id span value hle =>
    have hliteral : (Int32.ofNat (min value 2147483647)).toInt = value := by
      rw [show min value 2147483647 = value from Nat.min_eq_left hle]
      exact Int32.toInt_ofNat_of_lt (Nat.lt_of_le_of_lt hle (by decide))
    exact Frame.evaluates_const hcode rfl ⟨rfl, congrArg (some ∘ Value.number) hliteral⟩
  | bool => exact Frame.evaluates_const hcode rfl ⟨rfl, rfl⟩
  | @var first slot id name symbol type hresolve hscope hslot =>
    obtain ⟨slot', type', w, v, hlookup, hcell, hstore, hw⟩ := hmem.symbols symbol hscope
    obtain ⟨rfl, rfl⟩ := Prod.mk.inj (Option.some.inj (hslot.symm.trans hlookup))
    have hstep : m.step ⟨F, callers⟩ =
        .running [] ⟨({ F with code := rest } : Frame).setValue first w, callers⟩ := by
      rw [step_eq_ofFrame? hcode fun _ _ _ hcall => by cases hcall]
      simp [Frame.after?, Frame.content?, hcell, Next.ofFrame?]
    refine ⟨1, _, .single hstep, .inl ⟨w, v, ?_, if_pos rfl, hw, rfl, rfl, rfl, rfl, ?_⟩⟩
    · rw [eval, hresolve]
      exact hstore
    · exact fun id hid => if_neg (Nat.ne_of_lt hid)
  | @binary first id span opSpan op left right leftCode rightCode l r type hleft hright htakes
      ihleft ihright =>
      rw [append_assoc, append_assoc] at hcode
      rw [eval]
      obtain ⟨k, F₁, hsteps, hfirst⟩ := ihleft hcode hmem
      rcases hfirst with ⟨a, v, hv, ha, hav, hmoved⟩ | ⟨hv, hstuck⟩
      swap
      · rw [hv]
        exact ⟨k, F₁, hsteps, .inr ⟨rfl, hstuck⟩⟩
      obtain ⟨k', F₂, hsteps', hsecond⟩ := ihright hmoved.code (hmem.of_cells hmoved.cells)
      rw [hv, Option.bind_some]
      rcases hsecond with ⟨b, u, hu, hb, hbu, hmoved'⟩ | ⟨hu, hstuck⟩
      swap
      · rw [hu]
        exact ⟨k + k', F₂, hsteps.trans hsteps', .inr ⟨rfl, hstuck⟩⟩
      rw [hu, Option.bind_some]
      -- the left operand is still there when the right one is known
      have ha' : F₂.word? l = some a := (hmoved'.word?_eq hleft.operand_below).trans ha
      have hafter : m.step ⟨F₂, callers⟩ = .ofFrame? callers
          (((operatorOf op).apply a b).map fun w => ({ F₂ with code := rest } : Frame).setValue
            (first + leftCode.length + rightCode.length) w) := by
        rw [step_eq_ofFrame? hmoved'.code fun _ _ _ hcall => by cases hcall]
        exact congrArg _ (Frame.after?_binary (Frame.typed?_of_holds ha' hav)
          (Frame.typed?_of_holds hb hbu))
      have hagrees := apply_agrees htakes hav hbu
      generalize (operatorOf op).apply a b = w at hafter hagrees
      generalize op.apply v u = res at hagrees ⊢
      cases hagrees with
      | none => exact ⟨k + k', F₂, hsteps.trans hsteps', .inr ⟨rfl, hafter⟩⟩
      | @some w res hw =>
        refine ⟨k + k' + 1, _, (hsteps.trans hsteps').trans (.single hafter),
          .inl ⟨w, res, rfl, if_pos rfl, hw, hmoved'.function.trans hmoved.function,
            hmoved'.term.trans hmoved.term, rfl, hmoved'.cells.trans hmoved.cells, ?_⟩⟩
        intro id hid
        have hlt : id < first + leftCode.length := Nat.lt_add_right _ hid
        have hne : id ≠ first + leftCode.length + rightCode.length :=
          Nat.ne_of_lt (Nat.lt_add_right _ hlt)
        exact (if_neg hne).trans ((hmoved'.values id hlt).trans (hmoved.values id hid))

/-- The instructions for a number that is printed run to it. -/
theorem Prints.evaluates (h : Prints ctx scope slots first e code x)
    (hcode : F.code = code ++ rest) (hmem : t.Memory slots scope store F) :
    F.Evaluates m callers first rest x .i32
      ((eval ctx store e).map fun v => .number v.asNumber) := by
  cases h with
  | number h =>
    obtain ⟨k, F', hsteps, hreached⟩ := h.evaluates hcode hmem
    refine ⟨k, F', hsteps, ?_⟩
    rcases hreached with ⟨w, v, hv, hx, hw, hmoved⟩ | ⟨hv, hstuck⟩
    · obtain ⟨n, rfl, rfl⟩ := Word.holds_i32 hw
      exact .inl ⟨_, _, congrArg _ hv, hx, hw, hmoved⟩
    · exact .inr ⟨congrArg _ hv, hstuck⟩
  | @truth code x h =>
    rw [append_assoc] at hcode
    obtain ⟨k, F', hsteps, hreached⟩ := h.evaluates hcode hmem
    rcases hreached with ⟨w, v, hv, hx, hw, hmoved⟩ | ⟨hv, hstuck⟩
    · obtain ⟨b, rfl, rfl⟩ := Word.holds_i1 hw
      have hstep : m.step ⟨F', callers⟩ = .running []
          ⟨({ F' with code := rest } : Frame).setValue (first + code.length)
            (.number (if b then 1 else 0)), callers⟩ := by
        rw [step_eq_ofFrame? hmoved.code fun _ _ _ hcall => by cases hcall]
        change Next.ofFrame? callers ((F'.word? x).bind _) = _
        rw [hx]
        rfl
      refine ⟨k + 1, _, hsteps.trans (.single hstep), .inl ⟨_, _, congrArg _ hv, if_pos rfl,
        ⟨rfl, ?_⟩, hmoved.function, hmoved.term, rfl, hmoved.cells, fun id hid => ?_⟩⟩
      · cases b with
        | false | true => rfl
      · have hne : id ≠ first + code.length := Nat.ne_of_lt (Nat.lt_add_right _ hid)
        exact (if_neg hne).trans (hmoved.values id hid)
    · exact ⟨k, F', hsteps, .inr ⟨congrArg _ hv, hstuck⟩⟩

variable {result : ValueType} {least : Nat} {Q : Store → Frame → Prop}

/-- A value is computed, and something is done with it. -/
theorem Simulates.withValue {v : Option Value} {f : Value → Effect}
    (h : F.Evaluates m callers first rest x type v)
    (hf : ∀ w u F', F'.word? x = some w → w.Holds type u → F.Moved first rest F' →
      Simulates m result callers least Q F' (f u)) :
    Simulates m result callers least Q F (.withValue v f) := by
  obtain ⟨k, F', hsteps, hreached⟩ := h
  rcases hreached with ⟨w, u, rfl, hx, hw, hmoved⟩ | ⟨rfl, hstuck⟩
  · exact (hf w u F' hx hw hmoved).after hsteps
  · exact (Simulates.stuck hstuck).after hsteps

end Expressions

section Statements

variable {t : Target} {callers : Callers} {result : ValueType}
  {least : Nat} {Q : Store → Frame → Prop} {s : Lowering} {scope : List SymbolId} {store : Store}
  {F : Frame}

/-- Behind the instructions of an expression, only values are new. -/
theorem Target.Meets.moved (hF : t.Meets s scope store F) (hs' : s'.LeadsTo t)
    (code : List Instr) (hcurrent : s'.current = s.current)
    (hinstrs : s'.instrs = code.reverse ++ s.instrs) (hslots : s'.slots = s.slots) :
    ∃ rest, F.code = code ++ rest ∧ ∀ first F', F.Moved first rest F' →
      t.Meets s' scope store F' := by
  obtain ⟨rest, hcode, hat⟩ := hF.at_.code_eq hs' code hcurrent hinstrs
  refine ⟨rest, hcode, fun first F' hmoved =>
    ⟨hat F' hmoved.function hmoved.term hmoved.code, ?_⟩⟩
  rw [hslots]
  exact hF.memory.of_cells hmoved.cells

/-- The value of an expression is computed, and something is done with it. -/
theorem Target.Meets.computes (hF : t.Meets s scope store F) {ctx : Context} {e : Expr}
    {code : List Instr} (hcode : Computes ctx scope s.slots s.nextValue e code x type)
    (hs' : (s.computed code).LeadsTo t) {f : Value → Effect}
    (hf : ∀ w v F', F'.word? x = some w → w.Holds type v →
      t.Meets (s.computed code) scope store F' →
      Simulates t.module result callers least Q F' (f v)) :
    Simulates t.module result callers least Q F (.withValue (eval ctx store e) f) := by
  obtain ⟨rest, hrest, hmeets⟩ := hF.moved hs' code rfl rfl rfl
  exact .withValue (hcode.evaluates hrest hF.memory) fun w v F' hx hw hmoved =>
    hf w v F' hx hw (hmeets _ F' hmoved)

/-- A slot is made at the start of the function, so nothing happens here. -/
theorem Target.Meets.withSlot (hF : t.Meets s scope store F) (hvar : var ∉ scope)
    (type : ValueType) (span : Span) : t.Meets (s.withSlot var type span) scope store F :=
  ⟨⟨hF.at_.function, hF.at_.block⟩,
    hF.memory.of_lookup fun _ hsymbol => Lowering.lookup_withSlot hvar hsymbol type span⟩

theorem Target.Meets.inModule (hF : t.Meets s scope store F) (m : Module) :
    t.Meets (s.inModule m) scope store F :=
  ⟨⟨hF.at_.function, hF.at_.block⟩, hF.memory⟩

theorem Target.Meets.mono (hF : t.Meets s scope store F) {scope' : List SymbolId}
    (hsub : scope' ⊆ scope) : t.Meets s scope' store F :=
  ⟨hF.at_, hF.memory.mono hsub⟩

/-- A variable is given a value. -/
theorem Target.Meets.assigns (hF : t.Meets s scope store F) (hapart : s.SlotsApart) {span : Span}

    (hs' : (s.emitted span (.store type x slot)).LeadsTo t)
    (hx : F.word? x = some w) (hw : w.Holds type v)
    (hslot : s.slots.lookup var = some (slot, type))
    (hcell : ∃ content, F.cells slot = some ⟨type, content⟩) {e : Effect}
    (h : ∀ F', t.Meets (s.emitted span (.store type x slot)) (var :: scope) (store.set var v) F' →
      Simulates t.module result callers least Q F' e) :
    Simulates t.module result callers least Q F e := by
  obtain ⟨rest, hcode, hat⟩ := hF.at_.code_eq hs' [⟨span, none, .store type x slot⟩] rfl rfl
  have hstep : t.module.step ⟨F, callers⟩ = .running []
      ⟨({ F with code := rest } : Frame).setCell slot ⟨type, some w⟩, callers⟩ := by
    rw [step_eq_ofFrame? hcode fun _ _ _ hcall => by cases hcall]
    obtain ⟨content, hcontent⟩ := hcell
    change Next.ofFrame? callers ((F.typed? type x).bind fun w => (F.cells slot).bind _) = _
    rw [Frame.typed?_of_holds hx hw, hcontent]
    simp [Next.ofFrame?]
  refine .after (.single hstep) (h _ ?_)
  have hmemory : t.Memory s.slots scope store { F with code := rest } := hF.memory.of_cells rfl
  refine ⟨hat _ rfl rfl rfl, hmemory.set hslot ?_ hcell hw⟩
  exact fun symbol _ type' hsymbol => hapart.eq_of_lookup hsymbol hslot

end Statements

end Code

end DeferLang
