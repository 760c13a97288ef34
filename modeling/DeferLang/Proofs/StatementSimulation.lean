import DeferLang.Proofs.Simulation

/-!
# Statements and their code

The machine follows calls and statements, one rule of lowering after the other.  What is
called from a statement is assumed to be followed already, with less fuel
(`Code.Module.FollowsCall`).
-/

namespace DeferLang

open List

namespace Code

variable {target : BlockId} {i : Instr} {result : ValueType}

section Calls

variable {t : Target} {m : Module} {callers : Callers} {F : Frame} {type : ValueType}
  {slots : Slots} {first : ValueId} {code rest : List Instr} {x : Operand} {args : CallArgs}

/-- The constant for a text holds its bytes. -/
theorem Module.mem_intern (m : Module) (text : String) :
    ⟨(m.intern text).2, constantBytes text⟩ ∈ (m.intern text).1.constants := by
  unfold intern
  dsimp only
  split
  · rename_i c hc
    have hbytes : c.bytes = constantBytes text := by simpa using List.find?_some hc
    exact hbytes ▸ mem_of_find?_eq_some hc
  · exact mem_append_right _ mem_cons_self

/-- The address of the constant for a text is passed as the text. -/
theorem Module.datum?_intern (h : (m.constants.map Constant.name).Nodup) {before : Module}
    {text : String} (hm : (before.intern text).1.Extends m) :
    m.datum? (.address (before.intern text).2) = some (.text (constantBytes text)) :=
  congrArg (Option.map _)
    (find?_key Constant.name h (hm.constants.subset (before.mem_intern text)))

theorem Word.Holds.datum?_eq {w : Word} {v : Value} (h : w.Holds type v) (m : Module) :
    m.datum? w = some v.datum := by
  cases w with
  | number n | bit b => exact congrArg (some ∘ Value.datum) (Option.some.inj h.2)
  | address name => cases h.2

theorem Computes.argument?_eq {ctx : Context} {scope : List SymbolId} {e : Expr}
    (h : Computes ctx scope slots first e code x type) (store : Store) :
    argument? ctx store e = (eval ctx store e).map Value.datum := by
  cases h with
  | int _ | bool | var _ _ _ | binary _ _ _ => rfl

theorem mapM_cons_eq_bind {α β : Type} (f : α → Option β) (a : α) (as : List α) :
    (a :: as).mapM f = (f a).bind fun b => (as.mapM f).map (b :: ·) := by
  rw [mapM_cons]
  cases f a with
  | none => rfl
  | some b => cases as.mapM f <;> rfl

/-- The machine computes the arguments of a routine from outside, or is stuck where one of them
has no value. -/
theorem LowersArgs.evaluates {ctx : Context} {scope : List SymbolId} {s s' : Lowering}
    {es : List Expr} (h : LowersArgs ctx scope s es s' args)
    (hconstants : (t.module.constants.map Constant.name).Nodup) (hs' : s'.LeadsTo t) {store : Store}
    (hF : t.Meets s scope store F) (callers : Callers) :
    ∃ k F', Steps t.module k [] ⟨F, callers⟩ ⟨F', callers⟩ ∧
      ((∃ data, es.mapM (argument? ctx store) = some data ∧ t.module.data? F' args = some data ∧
          t.Meets s' scope store F' ∧ ∀ id < s.nextValue, F'.values id = F.values id) ∨
        (es.mapM (argument? ctx store) = none ∧
          t.module.step ⟨F', callers⟩ = .ended .stuck)) := by
  induction h generalizing F with
  | nil => exact ⟨0, F, .refl _, .inl ⟨[], rfl, rfl, hF, fun _ _ => rfl⟩⟩
  | @text s s' id span text args rest hargs ih =>
    have hmodule : (s.module.intern text).1.Extends t.module :=
      hargs.grows.module.trans hs'.module
    obtain ⟨k, F', hsteps, hreached⟩ := ih hs' (hF.inModule _)
    refine ⟨k, F', hsteps, ?_⟩
    rw [mapM_cons_eq_bind, argument?, Option.bind_some]
    rcases hreached with ⟨data, hdata, hdata', hmeets, hvalues⟩ | ⟨hdata, hstuck⟩
    · refine .inl ⟨.text (Module.constantBytes text) :: data, ?_, ?_, hmeets, hvalues⟩
      · rw [hdata]
        rfl
      · rw [Module.data?, mapM_cons_eq_bind, ← Module.data?, hdata']
        change ((t.module.datum? (.address _)).bind _) = _
        rw [Module.datum?_intern hconstants hmodule]
        rfl
    · refine .inr ⟨?_, hstuck⟩
      rw [hdata]
      rfl
  | @value s s' arg args code x type rest hcode hargs ih =>
    obtain ⟨tail, htail, hmeets⟩ := hF.moved (hargs.grows.leadsTo hs') code rfl rfl rfl
    obtain ⟨k, F₁, hsteps, hreached⟩ := hcode.evaluates htail hF.memory
    rw [mapM_cons_eq_bind, hcode.argument?_eq]
    rcases hreached with ⟨w, v, hv, hx, hw, hmoved⟩ | ⟨hv, hstuck⟩
    · obtain ⟨k', F', hsteps', hreached'⟩ := ih hs' (hmeets _ F₁ hmoved)
      refine ⟨k + k', F', hsteps.trans hsteps', ?_⟩
      rw [hv, Option.map_some, Option.bind_some]
      rcases hreached' with ⟨data, hdata, hdata', hmeets', hvalues⟩ | ⟨hdata, hstuck⟩
      · refine .inl ⟨v.datum :: data, ?_, ?_, hmeets', fun id hid => ?_⟩
        · rw [hdata]
          rfl
        · -- the first argument is still there when the others are known
          have hx' : F'.word? x = some w := by
            rw [← hx]
            cases x with
            | value id => exact hvalues id (hcode.operand_below id rfl)
            | _ => rfl
          rw [Module.data?, mapM_cons_eq_bind, ← Module.data?, hdata',
            Frame.typed?_of_holds hx' hw, Option.bind_some, hw.datum?_eq]
          rfl
        · exact (hvalues id (Nat.lt_add_right _ hid)).trans (hmoved.values id hid)
      · refine .inr ⟨?_, hstuck⟩
        rw [hdata]
        rfl
    · refine ⟨k, F₁, hsteps, .inr ⟨?_, hstuck⟩⟩
      rw [hv]
      rfl

theorem step_call (hcode : F.code = i :: rest) {callee : String}
    (hop : i.operation = .call callee result args) :
    m.step ⟨F, callers⟩ =
      m.call { F with code := rest } callers i.dest callee result args := by
  unfold Module.step
  dsimp only
  rw [hcode]
  dsimp only
  unfold Module.perform
  rw [hop]

/-- A routine from outside that is declared is called. -/
theorem step_routine {span : Span} {callee : String}
    (hcode : F.code = ⟨span, none, .call callee result args⟩ :: rest)
    (hfunction : m.functions.lookup callee = none) {signature : Signature}
    (hroutine : m.externs.lookup callee = some signature) {data : List Datum}
    (hdata : m.data? F args = some data) :
    m.step ⟨F, callers⟩ = .running [⟨callee, data⟩] ⟨{ F with code := rest }, callers⟩ := by
  have hdata' : m.data? { F with code := rest } args = some data := hdata
  rw [step_call hcode rfl, Module.call, hfunction]
  change m.callRoutine _ callers none callee args = _
  unfold Module.callRoutine
  rw [hroutine, hdata']

/-- The result of a function is given to the function that called it. -/
theorem Frame.Returns.step (h : F.Returns result) {dest : Option ValueId}
    (hdest : (dest = none ∧ result = .void) ∨ ∃ id, dest = some id ∧ result = .i32)
    (m : Module) (callers : Callers) (F' : Frame) :
    ∃ F'', m.step ⟨F, (dest, F') :: callers⟩ = .running [] ⟨F'', callers⟩ ∧
      F''.function = F'.function ∧ F''.term = F'.term ∧ F''.code = F'.code ∧
      F''.cells = F'.cells := by
  have hstep : m.step ⟨F, (dest, F') :: callers⟩ = F.leave ((dest, F') :: callers) := by
    unfold Module.step
    dsimp only
    rw [h.1]
  rw [hstep, Frame.leave, h.2]
  rcases hdest with ⟨rfl, rfl⟩ | ⟨id, rfl, rfl⟩
  · exact ⟨F', rfl, rfl, rfl, rfl, rfl⟩
  · exact ⟨F'.setValue id (.number 0), rfl, rfl, rfl, rfl, rfl⟩

/-- The machine does what a call of a function does, wherever it is called. -/
def Module.FollowsCall (m : Module) (least : Nat) (name : String) (r : Run) : Prop :=
  ∃ f F, m.functions.lookup name = some f ∧ f.result = resultType name ∧ f.start? = some F ∧
    ∀ callers store, Simulates m (resultType name) callers least
      (fun store' F' => store' = store ∧ F'.Returns (resultType name)) F (r.effect store)

/-- A function is called, and the machine goes on behind the call. -/
theorem Module.FollowsCall.simulates {least : Nat} {name : String} {r : Run}
    (h : m.FollowsCall least name r) (hcode : F.code = i :: rest)
    (hop : i.operation = .call name (resultType name) [])
    (hdest : (i.dest = none ∧ resultType name = .void) ∨
      ∃ id, i.dest = some id ∧ resultType name = .i32) {Q : Store → Frame → Prop} {store : Store}
    (hQ : ∀ F', F'.function = F.function → F'.term = F.term → F'.code = rest →
      F'.cells = F.cells → Q store F') :
    Simulates m result callers (least + 1) Q F (r.effect store) := by
  obtain ⟨f, F₀, hlookup, hresult, hstart, hbody⟩ := h
  have hstep : m.step ⟨F, callers⟩ =
      .running [] ⟨F₀, (i.dest, { F with code := rest }) :: callers⟩ := by
    rw [step_call hcode hop, Module.call, hlookup]
    dsimp only
    rw [if_pos ⟨rfl, hresult⟩, hstart]
    rfl
  obtain ⟨k, c, hsteps, hreaches⟩ := hbody ((i.dest, { F with code := rest }) :: callers) store
  have hcall := (Steps.single hstep).trans hsteps
  cases hflow : (r.effect store).flow with
  | next store' =>
    rw [hflow] at hreaches
    obtain ⟨F₁, rfl, rfl, hreturns⟩ := hreaches
    obtain ⟨F', hreturn, hfunction, hterm, hcode', hcells⟩ :=
      hreturns.step hdest m callers { F with code := rest }
    refine ⟨1 + k + 1, ⟨F', callers⟩, ?_, ?_⟩
    · have hall := hcall.trans (Steps.single hreturn)
      rwa [nil_append, append_nil] at hall
    · rw [hflow]
      exact ⟨F', rfl, hQ F' hfunction hterm hcode' hcells⟩
  | returned =>
    -- a call goes on behind itself, or does not come to an end
    unfold Run.effect at hflow
    dsimp only at hflow
    split at hflow
    · cases hflow
    · cases hflow
    · cases hflow
  | stuck =>
    rw [hflow] at hreaches
    refine ⟨1 + k, c, hcall, ?_⟩
    rw [hflow]
    exact hreaches
  | outOfFuel =>
    rw [hflow] at hreaches
    refine ⟨1 + k, c, hcall, ?_⟩
    rw [hflow]
    exact Nat.add_comm 1 k ▸ Nat.succ_le_succ hreaches

/-- The module has what statements that run with some fuel ask for. -/
structure Module.Runs (m : Module) (env : Env) (n : Nat) : Prop where
  fuel : env.fuel = n + 1
  constants : (m.constants.map Constant.name).Nodup
  routine : ∀ name, env.ctx.function? name = none → m.functions.lookup name = none
  print : m.functions.lookup env.printSymbol = none
  calls : ∀ name, (env.ctx.function? name).isSome = true → m.FollowsCall n name (env.call name)

variable {env : Env} {n : Nat} {result : ValueType} {s s' : Lowering} {scope : List SymbolId}
  {store : Store}

theorem Computes.execPrint_eq {e : Expr} (h : Computes env.ctx scope slots first e code x type)
    (store : Store) :
    execPrint env [e] store = .withValue (eval env.ctx store e) fun v =>
      .perform ⟨env.printSymbol, [.text (Module.constantBytes "%d\n"), .number v.asNumber]⟩
        store := by
  cases h with
  | int _ | bool | var _ _ _ | binary _ _ _ => rfl

/-- What is printed for an expression is a number. -/
theorem Prints.execPrint_eq {arg : Expr} (h : Prints env.ctx scope slots first arg code x)
    (store : Store) :
    execPrint env [arg] store =
      .withValue ((eval env.ctx store arg).map fun v => Value.number v.asNumber) fun v =>
        .perform ⟨env.printSymbol, [.text (Module.constantBytes "%d\n"), v.datum]⟩ store := by
  have hvalue : execPrint env [arg] store = .withValue (eval env.ctx store arg) fun v =>
      .perform ⟨env.printSymbol, [.text (Module.constantBytes "%d\n"), .number v.asNumber]⟩
        store := by
    cases h with
    | number h => exact h.execPrint_eq store
    | truth h => exact h.execPrint_eq store
  rw [hvalue]
  cases eval env.ctx store arg with
  | none | some v => rfl

/-- A routine is printed with, and the machine goes on behind the call. -/
theorem Module.Runs.simulates_print (h : t.module.Runs env n) (hF : t.Meets s scope store F)
    {before : Module} {format : String}
    (hm : (before.printing env.printSymbol format).1.Extends t.module) {span : Span}
    {rest : CallArgs} (hs' : (s.emitted span (.call env.printSymbol .i32
      ((.ptr, .address (before.printing env.printSymbol format).2) :: rest))).LeadsTo t)
    {data : List Datum} (hdata : t.module.data? F rest = some data) :
    Simulates t.module result callers (n + 1) (t.Meets (s.emitted span (.call env.printSymbol .i32
      ((.ptr, .address (before.printing env.printSymbol format).2) :: rest))) scope) F
      (.perform ⟨env.printSymbol, .text (Module.constantBytes format) :: data⟩ store) := by
  obtain ⟨tail, hcode, hmeets⟩ := hF.moved hs' [_] rfl rfl rfl
  have hroutine := hm.externs _ _ ((Module.extends_intern _ format).externs _ _
    ((before.lookup_declared env.printSymbol env.printSymbol Lower.printSignature).trans
      (if_pos rfl)))
  refine .perform (step_routine hcode h.print hroutine ?_) (hmeets 0 _ ?_)
  · rw [Module.data?, mapM_cons_eq_bind, ← Module.data?, hdata]
    change ((t.module.datum? (.address _)).bind _) = _
    rw [Module.printing, Module.datum?_intern h.constants hm]
    rfl
  · exact ⟨rfl, rfl, rfl, rfl, fun _ _ => rfl⟩

/-- The machine does what a call does. -/
theorem LowersCall.simulates {call : Call} (h : LowersCall env.ctx env.printSymbol scope s call s')
    (hm : t.module.Runs env n) (hs' : s'.LeadsTo t) (hF : t.Meets s scope store F) :
    Simulates t.module result callers (n + 1) (t.Meets s' scope) F (execCall env call store) := by
  cases h with
  | @printText _ id span text hname hargs =>
    rw [execCall, if_pos hname, hargs]
    exact hm.simulates_print (hF.inModule _) hs'.module hs' rfl
  | @printNumber _ arg code x hname hargs hcode =>
    rw [execCall, if_pos hname, hargs, hcode.execPrint_eq]
    have hs₁ : (s.computed code).LeadsTo t :=
      (Lowering.Grows.printed (s.computed code) _ _ _ _).leadsTo hs'
    obtain ⟨rest, hrest, hmeets⟩ := hF.moved hs₁ code rfl rfl rfl
    refine .withValue (hcode.evaluates hrest hF.memory) fun w v F' hx hw hmoved => ?_
    refine hm.simulates_print ((hmeets _ F' hmoved).inModule _) hs'.module hs' ?_
    rw [Module.data?, mapM_cons_eq_bind, Frame.typed?_of_holds hx hw, Option.bind_some,
      hw.datum?_eq]
    rfl
  | function hname hknown hargs hresult =>
    rw [execCall, if_neg hname, if_pos hknown]
    obtain ⟨rest, hcode, hmeets⟩ := hF.moved hs' [_] rfl rfl rfl
    refine (hm.calls _ hknown).simulates hcode (hresult ▸ rfl) (.inl ⟨rfl, hresult⟩) ?_
    intro F' hfunction hterm hcode' hcells
    exact hmeets 0 F' ⟨hfunction, hterm, hcode', hcells, fun _ hid => by contradiction⟩
  | main hname hknown hargs hresult =>
    rw [execCall, if_neg hname, if_pos hknown]
    obtain ⟨rest, hcode, hmeets⟩ := hF.moved hs' [_] rfl rfl rfl
    refine (hm.calls _ hknown).simulates hcode (hresult ▸ rfl) (.inr ⟨_, rfl, hresult⟩) ?_
    intro F' hfunction hterm hcode' hcells
    exact hmeets 0 F' ⟨hfunction, hterm, hcode', hcells, fun _ hid => by contradiction⟩
  | @routine s₁ _ args hname hnone hargs hdeclared =>
    have hne : ¬(env.ctx.function? call.callee.name).isSome = true := by
      rw [hnone]
      exact Bool.false_ne_true
    rw [execCall, if_neg hname, if_neg hne]
    have hs₁ := (Lowering.Grows.declared s₁ _ _ _ _).leadsTo hs'
    obtain ⟨k, F₁, hsteps, hreached⟩ := hargs.evaluates hm.constants hs₁ hF callers
    rcases hreached with ⟨data, hdata, hdata', hmeets, -⟩ | ⟨hdata, hstuck⟩
    · rw [hdata]
      obtain ⟨rest, hcode, hmoved⟩ := (hmeets.inModule _).moved hs' [_] rfl rfl rfl
      refine .after hsteps (.perform (step_routine hcode (hm.routine _ hnone)
        (hs'.module.externs _ _ hdeclared) hdata') (hmoved 0 _ ?_))
      exact ⟨rfl, rfl, rfl, rfl, fun _ _ => rfl⟩
    · rw [hdata]
      exact .after hsteps (.stuck hstuck)

end Calls

section Control

variable {t : Target} {callers : Callers} {result : ValueType} {least : Nat}
  {Q : Store → Frame → Prop} {s s' : Lowering} {scope : List SymbolId} {store : Store} {F : Frame}
  {next : BlockId}

/-- A later state of lowering starts a block, and the variables in scope keep their slots. -/
structure Lowering.Starts (s : Lowering) (scope : List SymbolId) (target : BlockId)
    (s' : Lowering) : Prop where
  current : s'.current = target
  instrs : s'.instrs = []
  lookup : ∀ symbol ∈ scope, s'.slots.lookup symbol = s.slots.lookup symbol

/-- Where a block ends, the machine goes to the start of another one. -/
theorem Target.Meets.leaves (hF : t.Meets s scope store F) (count : Nat) {term : Terminator}
    (hclosed : ((s.reserved count).closed term next).LeadsTo t)
    (htarget : target ∈ term.targets) (hstarts : s.Starts scope target s')
    (hleave : F.term = term → F.leave callers = .ofFrame? callers (F.jump? target)) :
    ∃ F', Steps t.module 1 [] ⟨F, callers⟩ ⟨F', callers⟩ ∧ t.Meets s' scope store F' := by
  obtain ⟨hcode, hterm⟩ := hF.at_.closed hclosed
  have hmem := hclosed.closed _ mem_cons_self
  obtain ⟨hblock, hne⟩ :=
    t.wellFormed.targets _ hmem target (by rw [term_withSlotsAt]; exact htarget)
  obtain ⟨b, hb, rfl⟩ := mem_map.1 hblock
  rw [t.entry] at hne
  refine ⟨F.enter b, .single ?_, .enter hF.at_.function hb hstarts.current.symm hne hstarts.instrs,
    (hF.memory.of_lookup hstarts.lookup).of_cells rfl⟩
  have hstep : t.module.step ⟨F, callers⟩ = F.leave callers := by
    unfold Module.step
    dsimp only
    rw [hcode]
  rw [hstep, hleave hterm, Frame.jump?, hF.at_.function, t.block?_eq hb]
  rfl

/-- A jump takes a step. -/
theorem Target.Meets.jumps (hF : t.Meets s scope store F) (count : Nat)
    (hclosed : ((s.reserved count).closed (.jump target) next).LeadsTo t)
    (hstarts : s.Starts scope target s') {e : Effect}
    (h : ∀ F', t.Meets s' scope store F' → Simulates t.module result callers least Q F' e) :
    Simulates t.module result callers (least + 1) Q F e := by
  have hleave (hterm : F.term = .jump target) :
      F.leave callers = .ofFrame? callers (F.jump? target) := by
    rw [Frame.leave, hterm]
  obtain ⟨F', hsteps, hF'⟩ := hF.leaves count hclosed mem_cons_self hstarts hleave
  exact (h F' hF').afterSteps hsteps

/-- A branch goes where the condition says. -/
theorem Target.Meets.branches (hF : t.Meets s scope store F) (count : Nat) {x : Operand}
    {thenTarget elseTarget : BlockId}
    (hclosed : ((s.reserved count).closed (.branch x thenTarget elseTarget) next).LeadsTo t)
    {w : Word} {v : Value} (hx : F.word? x = some w) (hw : w.Holds .i1 v) {s₁ s₂ : Lowering}
    (hthen : s.Starts scope thenTarget s₁) (helse : s.Starts scope elseTarget s₂) {yes no : Effect}
    (hyes : ∀ F', t.Meets s₁ scope store F' → Simulates t.module result callers least Q F' yes)
    (hno : ∀ F', t.Meets s₂ scope store F' → Simulates t.module result callers least Q F' no) :
    Simulates t.module result callers least Q F (.branch yes no v) := by
  obtain ⟨b, rfl, rfl⟩ := Word.holds_i1 hw
  have hleave (hterm : F.term = .branch x thenTarget elseTarget) : F.leave callers =
      .ofFrame? callers (F.jump? (if b then thenTarget else elseTarget)) := by
    rw [Frame.leave, hterm]
    dsimp only
    rw [hx]
  cases b with
  | true =>
    obtain ⟨F', hsteps, hF'⟩ := hF.leaves count hclosed mem_cons_self hthen hleave
    exact (hyes F' hF').after hsteps
  | false =>
    obtain ⟨F', hsteps, hF'⟩ := hF.leaves count hclosed (mem_cons_of_mem _ mem_cons_self)
      helse hleave
    exact (hno F' hF').after hsteps

end Control

section Statements

variable {t : Target} {callers : Callers} {env : Env} {n : Nat}
  {scope inner : List SymbolId} {s s' : Lowering} {code : List Instr} {x : Operand}
  {symbol : SymbolId} {type : ValueType} {span : Span} {store : Store} {F : Frame}

/-- A variable without initial value holds what its slot is given. -/
theorem zero_holds {type : Ty} {v : ValueType} (h : valueType? type = some v) (F : Frame) :
    ∃ w u, F.word? (zero v) = some w ∧ Value.zero? type = some u ∧ w.Holds v u := by
  rcases valueType?_eq_some.1 h with ⟨htype, rfl⟩ | ⟨htype, rfl⟩
  · refine ⟨.number 0, .number 0, rfl, ?_, rfl, rfl⟩
    rw [Value.zero?, htype]
  · refine ⟨.bit false, .truth false, rfl, ?_, rfl, rfl⟩
    rw [Value.zero?, htype]

/-- A new slot is there, since all slots are made at the start. -/
theorem Lowering.LeadsTo.allocated {slots : Slots} {var : SymbolId}
    (hs : (s.withSlot var type span).LeadsTo t) (hF : t.Memory slots scope store F) :
    ∃ content, F.cells s.nextValue = some ⟨type, content⟩ :=
  hF.allocated _ (hs.slotInstrs mem_cons_self) _ _ rfl

/-- Behind a piece of program, the machine jumps to the start of a block. -/
theorem Simulates.jumps {e : Effect} {next : BlockId}
    (h : Simulates t.module result callers n (t.Meets s inner) F e) (hinner : scope ⊆ inner)
    (hjump : (s.closed (.jump target) next).LeadsTo t) (hstarts : s.Starts scope target s') :
    Simulates t.module result callers n (t.Meets s' scope) F e :=
  h.trans fun _ _ hF => ((hF.mono hinner).jumps 0 hjump hstarts fun _ hF' => .next hF').mono
    (Nat.le_succ n)

/-- The machine does what a piece of program does under a condition.  Its first part comes next,
and the other block is started behind that. -/
theorem simulates_branch (count : Nat) {cond : Expr} {thenBlock elseBlock : BlockId}
    (hbranch : (((s.computed code).reserved count).closed (.branch x thenBlock elseBlock)
      thenBlock).LeadsTo t) (hcode : Computes env.ctx scope s.slots s.nextValue cond code x .i1)
    (hlookup : ∀ symbol ∈ scope, s'.slots.lookup symbol = s.slots.lookup symbol)
    {Q : Store → Frame → Prop} {yes no : Effect}
    (hyes : ∀ F, t.Meets (((s.computed code).reserved count).closed
      (.branch x thenBlock elseBlock) thenBlock) scope store F →
      Simulates t.module t.function.result callers n Q F yes)
    (hno : ∀ F, t.Meets (s'.closed (.jump target) elseBlock) scope store F →
      Simulates t.module t.function.result callers n Q F no) (hF : t.Meets s scope store F) :
    Simulates t.module t.function.result callers n Q F
      (.withValue (eval env.ctx store cond) (.branch yes no)) := by
  have hthen : (s.computed code).Starts scope thenBlock
      (((s.computed code).reserved count).closed (.branch x thenBlock elseBlock) thenBlock) :=
    ⟨rfl, rfl, fun _ _ => rfl⟩
  have helse : (s.computed code).Starts scope elseBlock (s'.closed (.jump target) elseBlock) :=
    ⟨rfl, rfl, hlookup⟩
  refine hF.computes hcode hbranch.of_closed.of_reserved fun _ _ _ hx hw hF' => ?_
  exact hF'.branches count hbranch hx hw hthen helse hyes hno

/-- The machine runs a loop as long as its condition holds.  Every round takes at least one
step. -/
theorem simulates_while {cond : Expr} {header inside exit : BlockId}
    (hbranch : ((s.computed code).closed (.branch x inside exit) inside).LeadsTo t)
    (hcode : Computes env.ctx scope s.slots s.nextValue cond code x .i1)
    (hstart : s.current = header ∧ s.instrs = [])
    (hback : (s'.closed (.jump header) exit).LeadsTo t) (hinner : scope ⊆ inner)
    (hlookup : ∀ symbol ∈ scope, s'.slots.lookup symbol = s.slots.lookup symbol)
    {body : Store → Effect}
    (hbody : ∀ store F, t.Meets ((s.computed code).closed (.branch x inside exit) inside) scope
      store F → Simulates t.module t.function.result callers n (t.Meets s' inner) F (body store))
    {fuel : Nat} (hfuel : fuel ≤ n) (hF : t.Meets s scope store F) :
    Simulates t.module t.function.result callers fuel
      (t.Meets (s'.closed (.jump header) exit) scope) F
      (execWhile (fun store => eval env.ctx store cond) body fuel store) := by
  have hagain : s'.Starts scope header s :=
    ⟨hstart.1, hstart.2, fun symbol hsymbol => (hlookup symbol hsymbol).symm⟩
  induction fuel generalizing store F with
  | zero => exact ⟨0, _, .refl _, Nat.le_refl 0⟩
  | succ fuel ih =>
    rw [execWhile]
    refine simulates_branch 0 hbranch hcode hlookup (fun F' hF' => ?_) (fun _ hF' => .next hF') hF
    refine ((hbody store F' hF').mono hfuel).andThen fun store' F₁ hF₁ => ?_
    exact (hF₁.mono hinner).jumps 0 hback hagain fun F₂ hF₂ => ih (Nat.le_of_succ_le hfuel) hF₂

/-- The machine runs the copies of a loop body. -/
theorem LowersCopies.simulates {slot : ValueId} {body : BlockOf Stmt}
    (hbody : ∀ s s₁ inner, LowersBlock env.ctx env.printSymbol (symbol :: scope) s body s₁ inner →
      s₁.LeadsTo t → s.SlotsApart → ∀ store F, t.Meets s (symbol :: scope) store F →
      Simulates t.module t.function.result callers n (t.Meets s₁ inner) F
        (execBlock env body store)) {is : List Nat} (his : ∀ i ∈ is, (Int32.ofNat i).toInt = i)
    (h : LowersCopies env.ctx env.printSymbol (symbol :: scope) span slot is s body s')
    (hs' : s'.LeadsTo t) (hapart : s.SlotsApart)
    (hslot : s.slots.lookup symbol = some (slot, .i32)) (hi : i ∈ t.slots)
    (hislot : i.slot? = some (slot, .i32)) (hF : t.Meets s scope store F) :
    Simulates t.module t.function.result callers n (t.Meets s' scope) F
      (execFor symbol (execBlock env body) is store) := by
  induction is generalizing s store F with
  | nil =>
    cases h
    exact .next hF
  | cons j is ih =>
    cases h with
    | cons hfirst hrest =>
      rename_i inner s₁
      obtain ⟨hj, his⟩ := forall_mem_cons.1 his
      have hgrows := LowersBlock.grows body hfirst
      have hs₁ : s₁.LeadsTo t := hrest.grows.leadsTo hs'
      have hemitted := Lowering.Grows.emitted s span
        (.store .i32 (.const32 (Int32.ofNat j)) slot)
      have hvalue : (Word.number (Int32.ofNat j)).Holds .i32 (.number j) :=
        ⟨rfl, congrArg (some ∘ Value.number) hj⟩
      refine hF.assigns hapart (hgrows.leadsTo hs₁) rfl hvalue hslot
        (hF.memory.allocated i hi slot .i32 hislot) fun F₁ hF₁ => ?_
      refine (hbody _ s₁ inner hfirst hs₁ (hemitted.slotsApart hapart) _ F₁ hF₁).andThen
        fun store' F₂ hF₂ => ?_
      have hsymbol : s₁.slots.lookup symbol = some (slot, .i32) :=
        (LowersBlock.lookup_slots body hfirst symbol mem_cons_self).trans hslot
      have hscope : scope ⊆ inner := List.Subset.trans (subset_cons_self _ _)
        (LowersBlock.scope_subset body hfirst)
      exact ih his hrest ((hemitted.trans hgrows).slotsApart hapart) hsymbol (hF₂.mono hscope)

/-- The machine does what a declaration with an initial value does. -/
theorem simulates_declareInit {d : VarDecl} {init : Expr} (hinit : d.init = some init)
    (hdecl : env.ctx.declSymbol? d.id = some symbol) (hnew : symbol ∉ scope)
    (hcode : Computes env.ctx scope (s.withSlot symbol type d.span).slots (s.nextValue + 1) init
      code x type) (hs' : (((s.withSlot symbol type d.span).computed code).emitted d.span
      (.store type x s.nextValue)).LeadsTo t)
    (hapart : s.SlotsApart) (hF : t.Meets s scope store F) :
    Simulates t.module t.function.result callers n
      (t.Meets (((s.withSlot symbol type d.span).computed code).emitted d.span
        (.store type x s.nextValue)) (symbol :: scope)) F (execDecl env d store) := by
  have hcomputed := hs'.of_emitted
  have hslot := hcomputed.of_computed
  have hexec : execDecl env d store =
      .withValue (eval env.ctx store init) fun v => .next (store.set symbol v) := by
    rw [execDecl, hdecl, hinit]
    rfl
  rw [hexec]
  refine (hF.withSlot hnew type d.span).computes hcode hcomputed fun w v F' hx hw hF' => ?_
  exact hF'.assigns ((hapart.withSlot symbol type d.span).computed code) hs' hx hw
    lookup_cons_self (hslot.allocated hF'.memory) fun F'' hF'' => .next hF''

theorem simulates_declareZero {d : VarDecl} {type : Ty} {v : ValueType} (hinit : d.init = none)
    (hdecl : env.ctx.declSymbol? d.id = some symbol) (hnew : symbol ∉ scope)
    (htype : env.ctx.symbolType? symbol = some type) (hv : valueType? type = some v)
    (hs' : ((s.withSlot symbol v d.span).emitted d.span (.store v (zero v) s.nextValue)).LeadsTo t)
    (hapart : s.SlotsApart) (hF : t.Meets s scope store F) :
    Simulates t.module t.function.result callers n
      (t.Meets ((s.withSlot symbol v d.span).emitted d.span (.store v (zero v) s.nextValue))
        (symbol :: scope)) F (execDecl env d store) := by
  have hslot := hs'.of_emitted
  obtain ⟨w, u, hx, hu, hw⟩ := zero_holds hv F
  have hexec : execDecl env d store = .next (store.set symbol u) := by
    obtain ⟨symbol', hsymbol', rfl⟩ := Option.map_eq_some_iff.1 htype
    rw [execDecl, hdecl, hinit]
    dsimp only [Effect.withValue]
    rw [hsymbol', Option.bind_some, hu]
  rw [hexec]
  exact (hF.withSlot hnew v d.span).assigns (hapart.withSlot symbol v d.span) hs' hx hw
    lookup_cons_self (hslot.allocated hF.memory) fun F'' hF'' => .next hF''

theorem simulates_assign {id : NodeId} {name : Ident} {value : Expr} {slot : ValueId}
    (hresolve : env.ctx.resolve? id = some symbol)
    (hscope : symbol ∈ scope) (hslot : s.slots.lookup symbol = some (slot, type))
    (hcode : Computes env.ctx scope s.slots s.nextValue value code x type)
    (hs' : ((s.computed code).emitted span (.store type x slot)).LeadsTo t)
    (hapart : s.SlotsApart) (hF : t.Meets s scope store F) :
    Simulates t.module t.function.result callers n
      (t.Meets ((s.computed code).emitted span (.store type x slot)) scope) F
      (execAssign env (.var id name) value store) := by
  have hexec : execAssign env (.var id name) value store =
      .withValue (eval env.ctx store value) fun v => .next (store.set symbol v) := by
    rw [execAssign, hresolve]
    rfl
  rw [hexec]
  refine hF.computes hcode hs'.of_emitted fun w v F' hx hw hF' => ?_
  obtain ⟨slot', type', w', v', hslot', hcell, -⟩ := hF'.memory.symbols symbol hscope
  obtain ⟨rfl, rfl⟩ := Prod.mk.inj (Option.some.inj (hslot.symm.trans hslot'))
  exact hF'.assigns (hapart.computed code) hs' hx hw hslot ⟨_, hcell⟩
    fun F'' hF'' => .next (hF''.mono (subset_cons_self _ _))

mutual

/-- The machine does what a statement does. -/
theorem LowersStmt.simulates (hm : t.module.Runs env n) (st : Stmt) {scope scope' : List SymbolId}
    {s s' : Lowering} (h : LowersStmt env.ctx env.printSymbol scope s st s' scope')
    (hs' : s'.LeadsTo t) (hapart : s.SlotsApart) (store : Store) (F : Frame)
    (hF : t.Meets s scope store F) :
    Simulates t.module t.function.result callers (n + 1) (t.Meets s' scope') F
      (execStmt env st store) := by
  match st, h with
  | .varDecl d, .declareZero hinit hdecl hnew htype hv =>
    rw [execStmt]
    exact simulates_declareZero hinit hdecl hnew htype hv hs' hapart hF
  | .varDecl d, .declareInit hinit hdecl hnew _ _ hcode =>
    rw [execStmt]
    exact simulates_declareInit hinit hdecl hnew hcode hs' hapart hF
  | .assign _ _ _, .assign hresolve hscope hslot hcode =>
    rw [execStmt]
    exact simulates_assign hresolve hscope hslot hcode hs' hapart hF
  | .call _ _, .call hcall =>
    rw [execStmt]
    exact hcall.simulates hm hs' hF
  | .block body, .block hbody =>
    rw [execStmt]
    exact LowersBlock.simulates hm body hbody hs' hapart store F hF
  | .ifElse _ _ thenBody none, .ifThen hcode hthen =>
    rw [execStmt]
    have hyes := LowersBlock.simulates hm thenBody hthen hs'.of_closed (hapart.computed _)
    have hlookup := LowersBlock.lookup_slots thenBody hthen
    refine simulates_branch 2 ((LowersBlock.grows thenBody hthen).leadsTo hs'.of_closed) hcode
      hlookup (fun F' hF' => ?_) (fun _ hF' => .next hF') hF
    exact (hyes store F' hF').jumps (LowersBlock.scope_subset thenBody hthen) hs'
      ⟨rfl, rfl, fun _ _ => rfl⟩
  | .ifElse _ _ thenBody (some elseBody), .ifElse hcode hthen helse =>
    rw [execStmt]
    have hjump := (LowersBlock.grows elseBody helse).leadsTo hs'.of_closed
    have hyes := LowersBlock.simulates hm thenBody hthen hjump.of_closed (hapart.computed _)
    have hno := LowersBlock.simulates hm elseBody helse hs'.of_closed
      ((LowersBlock.grows thenBody hthen).slotsApart (hapart.computed _))
    have hlookup := LowersBlock.lookup_slots thenBody hthen
    have hlookup' := LowersBlock.lookup_slots elseBody helse
    refine simulates_branch 3 ((LowersBlock.grows thenBody hthen).leadsTo hjump.of_closed) hcode
      hlookup (fun F' hF' => ?_) (fun F' hF' => (hno store F' hF').jumps
        (LowersBlock.scope_subset elseBody helse) hs' ⟨rfl, rfl, fun _ _ => rfl⟩) hF
    exact (hyes store F' hF').jumps (LowersBlock.scope_subset thenBody hthen) hjump
      ⟨rfl, rfl, hlookup'⟩
  | .whileLoop _ _ body, .whileLoop hcode hlowers =>
    rw [execStmt, hm.fuel]
    have hbody := LowersBlock.simulates hm body hlowers hs'.of_closed (hapart.computed _)
    have hbranch := (LowersBlock.grows body hlowers).leadsTo hs'.of_closed
    have hlookup := LowersBlock.lookup_slots body hlowers
    have hstarts : s.Starts scope s.nextBlock
        ((s.reserved 3).closed (.jump s.nextBlock) s.nextBlock) := ⟨rfl, rfl, fun _ _ => rfl⟩
    refine (hF.jumps 3 hbranch.of_closed.of_computed hstarts fun F' hF' => ?_).mono
      (Nat.le_succ _)
    exact simulates_while hbranch hcode ⟨rfl, rfl⟩ hs' (LowersBlock.scope_subset body hlowers)
      hlookup hbody (Nat.le_refl _) hF'
  | .forIn _ _ var _ body, .forIn hcount hdecl hnew htype hcopies =>
    rw [execStmt, hdecl]
    have hslot := (hcopies.grows.leadsTo hs').slotInstrs mem_cons_self
    refine hcopies.simulates (fun _ _ _ hlowers => LowersBlock.simulates hm body hlowers)
      (fun i hi => ?_) hs' (hapart.withSlot _ _ _) lookup_cons_self hslot rfl
      (hF.withSlot hnew _ _)
    have hlt := Nat.lt_of_lt_of_le (mem_range.1 hi) hcount
    exact Int32.toInt_ofNat_of_lt (Nat.lt_trans hlt (by decide))
  | .ret _ _, .ret =>
    rw [execStmt]
    obtain ⟨hcode, hterm⟩ := hF.at_.closed hs'
    exact .returned ⟨hcode, hs'.result ▸ hterm⟩
  | .defer _ _, .defer =>
    rw [execStmt]
    exact .next hF
  | .cleanup _, .deferred haction hcall =>
    rw [execStmt, haction]
    exact hcall.simulates hm hs' hF
  | .cleanup item, .cleanup hother =>
    rw [execStmt]
    split
    · rename_i call haction
      exact absurd haction (hother call)
    · exact .next hF
    · exact .next hF

theorem LowersBlock.simulates (hm : t.module.Runs env n) (b : BlockOf Stmt)
    {scope scope' : List SymbolId} {s s' : Lowering}
    (h : LowersBlock env.ctx env.printSymbol scope s b s' scope') (hs' : s'.LeadsTo t)
    (hapart : s.SlotsApart) (store : Store) (F : Frame) (hF : t.Meets s scope store F) :
    Simulates t.module t.function.result callers (n + 1) (t.Meets s' scope') F
      (execBlock env b store) := by
  match b, h with
  | ⟨_, _, stmts⟩, .mk hstmts =>
    rw [execBlock]
    exact LowersStmts.simulates hm stmts hstmts hs' hapart store F hF

theorem LowersStmts.simulates (hm : t.module.Runs env n) (ss : List Stmt)
    {scope scope' : List SymbolId} {s s' : Lowering}
    (h : LowersStmts env.ctx env.printSymbol scope s ss s' scope') (hs' : s'.LeadsTo t)
    (hapart : s.SlotsApart) (store : Store) (F : Frame) (hF : t.Meets s scope store F) :
    Simulates t.module t.function.result callers (n + 1) (t.Meets s' scope') F
      (execStmts env ss store) := by
  match ss, h with
  | [], .nil =>
    rw [execStmts]
    exact .next hF
  | st :: ss, .cons hst hss =>
    rw [execStmts]
    have hfirst := LowersStmt.simulates hm st hst ((LowersStmts.grows ss hss).leadsTo hs')
      hapart store F hF
    refine hfirst.andThen fun store' F' hF' => ?_
    exact LowersStmts.simulates hm ss hss hs' ((LowersStmt.grows st hst).slotsApart hapart)
      store' F' hF'

end

end Statements

end Code

end DeferLang
