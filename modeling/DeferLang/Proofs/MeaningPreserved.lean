import DeferLang.Proofs.StatementSimulation

/-!
# Lowering preserves meaning

A function and its code perform the same calls of routines from outside, and one comes to
an end exactly if the other does, in the same way (`SameBehavior`).  The machine follows the
body of a function from the end of its slots to its return; by induction on the fuel it
follows every call, and from this both directions are read off, since the machine never has
a choice.
-/

namespace DeferLang

open List

variable {m : Code.Module} {F : Code.Frame} {s : Code.Lowering} {name : String}

namespace Code

section Functions

variable {m : Module}

/-- The slots at the start of a function are made. -/
theorem steps_slots (m : Module) (callers : Callers)
    {slots rest : List Instr} (hslots : ∀ i ∈ slots, ∃ id type, i.slot? = some (id, type))
    (hnodup : (slots.filterMap Instr.dest).Nodup) (hcode : F.code = slots ++ rest) :
    ∃ F', Steps m slots.length [] ⟨F, callers⟩ ⟨F', callers⟩ ∧
      (F'.function = F.function ∧ F'.term = F.term ∧ F'.code = rest) ∧
      (∀ i ∈ slots, ∀ id type, i.slot? = some (id, type) → F'.cells id = some ⟨type, none⟩) ∧
      ∀ id ∉ slots.filterMap Instr.dest, F'.cells id = F.cells id := by
  induction slots generalizing F with
  | nil =>
    exact ⟨F, .refl _, ⟨rfl, rfl, hcode⟩, fun _ hi => by contradiction, fun _ _ => rfl⟩
  | cons i slots ih =>
    obtain ⟨⟨id, type, hslot⟩, hslots⟩ := forall_mem_cons.1 hslots
    obtain ⟨hdest, hop⟩ := Instr.slot?_eq_some.1 hslot
    rw [filterMap_cons_some hdest] at hnodup ⊢
    obtain ⟨hnew, hnodup⟩ := nodup_cons.1 hnodup
    let F₁ := ({ F with code := slots ++ rest } : Frame).setCell id ⟨type, none⟩
    have hstep : m.step ⟨F, callers⟩ = .running [] ⟨F₁, callers⟩ := by
      rw [step_eq_ofFrame? hcode (by rw [hop]; exact fun _ _ _ hcall => by cases hcall), hop, hdest]
      rfl
    obtain ⟨F', hsteps, hplace, hcells, hother⟩ := ih hslots hnodup (F := F₁) rfl
    refine ⟨F', ?_, hplace, ?_, fun id' hid' => ?_⟩
    · exact .step hstep hsteps
    · refine forall_mem_cons.2 ⟨fun id' type' hslot' => ?_, hcells⟩
      obtain ⟨rfl, rfl⟩ := Prod.mk.inj (Option.some.inj (hslot.symm.trans hslot'))
      exact (hother id hnew).trans (if_pos rfl)
    · obtain ⟨hne, hrest⟩ := not_or.1 (mt mem_cons.2 hid')
      exact (hother id' hrest).trans (if_neg hne)

/-- The run of a function is that of its body. -/
theorem Simulates.run {callers : Callers} {result : ValueType} {least : Nat}
    {Q : Store → Frame → Prop} {e : Effect} (h : Simulates m result callers least Q F e)
    (hQ : ∀ store F', Q store F' → F'.Returns result) (store : Store) :
    Simulates m result callers least (fun store' F' => store' = store ∧ F'.Returns result) F
      (e.run.effect store) := by
  obtain ⟨k, c, hsteps, hreaches⟩ := h
  refine ⟨k, c, hsteps, ?_⟩
  unfold Effect.run Run.effect
  dsimp only
  cases hflow : e.flow with
  | next store' =>
    rw [hflow] at hreaches
    obtain ⟨F', hc, hF'⟩ := hreaches
    exact ⟨F', hc, rfl, hQ store' F' hF'⟩
  | returned =>
    rw [hflow] at hreaches
    obtain ⟨F', hc, hF'⟩ := hreaches
    exact ⟨F', hc, rfl, hF'⟩
  | stuck | outOfFuel =>
    rw [hflow] at hreaches
    exact hreaches

variable {ctx : Context} {printSymbol : String} {f : DeferLang.Function} {code : Function}

/-- The function that is made from the end of a body, with its slots. -/
def Lowering.target (s : Lowering) (f : DeferLang.Function) (m : Module)
    (hwf : (s.finished.code f).WellFormed) : Target :=
  ⟨m, s.finished.code f, s.slotInstrs.reverse, hwf, rfl⟩

/-- No block was made with the number of the block that is not closed at the end. -/
theorem Lowering.Fits.ne_current (h : s.Fits []) (f : DeferLang.Function) :
    ∀ b ∈ (s.finished.code f).blocks, b.id ≠ s.finished.current := by
  intro b hb hid
  have hmem : b.id ∈ (s.finished.code f).blocks.map BasicBlock.id := mem_map_of_mem hb
  rw [h.finished.1.ids_code, hid] at hmem
  exact (nodup_cons.1 h.finished.1.numbered.nodup).1 (mem_reverse.1 hmem)

/-- The end of a body leads to the function. -/
theorem Lowering.Fits.leadsTo (h : s.Fits []) (f : DeferLang.Function)
    (hm : s.module.Extends m) (hwf : (s.finished.code f).WellFormed) :
    s.finished.LeadsTo (s.target f m hwf) := by
  refine ⟨fun b hb => ?_, fun b hb hid => absurd hid (h.ne_current f b hb), ?_, rfl, ?_⟩
  · change withSlotsAt s.slotInstrs.reverse b ∈ (s.finished.code f).blocks
    rw [h.finished.1.blocks_code, s.slotInstrs_finished]
    exact mem_map_of_mem (mem_reverse.2 hb)
  · rw [s.slotInstrs_finished]
    exact fun i hi => mem_reverse.2 hi
  · rw [s.finished_module]
    exact hm

theorem start?_eq_some (hwf : code.WellFormed) : ∃ b ∈ code.blocks, b.id = code.entry ∧
    code.start? = some ⟨code, b.instrs, b.term, fun _ => none, fun _ => none⟩ := by
  obtain ⟨b, hb, hid⟩ := mem_map.1 hwf.entry_mem
  refine ⟨b, hb, hid, ?_⟩
  rw [Function.start?, Function.block?, ← hid, find?_key BasicBlock.id hwf.blocks_nodup hb]
  rfl

/-- From its start, the machine comes to where lowering started with the body. -/
theorem Target.start {t : Target} {before : Module} (hs : (Lowering.start before name).LeadsTo t)
    (hslots : ∀ i ∈ t.slots, ∃ id type, i.slot? = some (id, type))
    (hnodup : (t.slots.filterMap Instr.dest).Nodup) (store : Store) :
    ∃ F, t.function.start? = some F ∧ ∀ callers, ∃ k F',
      Steps t.module k [] ⟨F, callers⟩ ⟨F', callers⟩ ∧
        t.Meets (Lowering.start before name) [] store F' := by
  obtain ⟨b, hb, hid, hstart⟩ := start?_eq_some t.wellFormed
  rw [t.entry] at hid
  obtain ⟨rest, hrest⟩ := hs.current b hb hid
  have hlead : lead t.slots b.id = t.slots := if_pos hid
  have hinstrs : b.instrs = t.slots ++ rest := by
    rw [← hrest, hlead]
    exact congrArg (· ++ rest) (append_nil _)
  refine ⟨_, hstart, fun callers => ?_⟩
  obtain ⟨F', hsteps, ⟨hfunction, hterm, hcode⟩, hcells, -⟩ :=
    steps_slots t.module callers hslots hnodup
      (F := ⟨t.function, b.instrs, b.term, fun _ => none, fun _ => none⟩) hinstrs
  refine ⟨_, F', hsteps, ⟨hfunction, b, hb, hid, hterm.symm, ?_⟩, ?_, ?_⟩
  · rw [hcode, ← hrest, append_assoc]
  · exact fun i hi id type hslot => ⟨none, hcells i hi id type hslot⟩
  · exact fun _ hsymbol => by contradiction

end Functions

section Programs

variable {ctx : Context} {printSymbol : String} {m m' : Module}

/-- The names of constants are numbered. -/
def Module.NumbersConstants (m : Module) : Prop :=
  ∀ i c, m.constants[i]? = some c → c.name = ".str" ++ Nat.repr i

theorem Module.NumbersConstants.intern (h : m.NumbersConstants) (text : String) :
    (m.intern text).1.NumbersConstants := by
  unfold Module.intern
  dsimp only
  split
  · exact h
  · intro i c hc
    rcases Nat.lt_trichotomy i m.constants.length with hlt | heq | hgt
    · rw [List.getElem?_append_left hlt] at hc
      exact h i c hc
    · rw [heq, List.getElem?_append_right (Nat.le_refl _), Nat.sub_self] at hc
      obtain rfl := Option.some.inj hc
      rw [heq]
    · rw [List.getElem?_append_right (Nat.le_of_lt hgt)] at hc
      obtain ⟨j, hj⟩ := Nat.exists_eq_add_of_lt (Nat.sub_pos_of_lt hgt)
      rw [hj] at hc
      contradiction

/-- Numbered names are all different. -/
theorem Module.NumbersConstants.nodup (h : m.NumbersConstants) :
    (m.constants.map Constant.name).Nodup := by
  refine nodup_iff_pairwise_ne.2 (pairwise_iff_getElem.2 fun i j hi hj hlt heq => ?_)
  rw [length_map] at hi hj
  rw [getElem_map, getElem_map, h i _ (List.getElem?_eq_getElem hi),
    h j _ (List.getElem?_eq_getElem hj), String.append_right_inj] at heq
  have hdigits := congrArg (fun s => Nat.ofDigitChars 10 s.toList 0) heq
  simp only [Nat.toList_repr, Nat.ofDigitChars_ten_toDigits] at hdigits
  exact Nat.ne_of_lt hlt hdigits

theorem LowersFunctions.nodup_constants {fs : List DeferLang.Function}
    (h : LowersFunctions ctx printSymbol m fs m') (hm : m.constants = []) :
    (m'.constants.map Constant.name).Nodup := by
  have hkept : Module.Kept ctx printSymbol Module.NumbersConstants (callsOf fs) := by
    have hdeclared : ∀ (m : Module) name s, m.NumbersConstants →
        (m.declared name s).NumbersConstants := by
      intro m name s hm
      unfold Module.declared
      split
      · exact hm
      · exact hm
    exact ⟨fun m hm => hdeclared m _ _ hm, fun m _ _ _ _ _ hm => hdeclared m _ _ hm,
      fun m text hm => hm.intern text⟩
  refine (h.keeps_module hkept (fun _ _ _ hm => hm) fun i c hc => ?_).nodup
  rw [hm] at hc
  contradiction

end Programs

end Code

namespace Code

end Code

section Compilation

/-- Where a module is emitted, nothing was reported about the code, and it is the code. -/
theorem emitProgram_eq_ok {ctx : Context} {options : Code.LowerOptions} {source : Source}
    {p : Program} (h : Code.emitProgram ctx options source p = .ok m) :
    ∃ name, (Code.lowerProgram ctx options name p).2 = [] ∧
      m = (Code.lowerProgram ctx options name p).1 := by
  unfold Code.emitProgram at h
  dsimp only at h
  split at h
  · rename_i hempty
    split at h
    · exact ⟨_, isEmpty_iff.1 hempty, (Except.ok.inj h).symm⟩
    · contradiction
  · contradiction

/-- A compilation that gives a module checked the source without an error, scheduled its cleanup,
and lowered the result without an error. -/
theorem ofSource_module {o : Options} {s : Source} (h : (Artifacts.ofSource o s).module = some m) :
    (∀ e ∈ s.program.check.2, e.fault.severity ≠ .error) ∧
      (Artifacts.ofSource o s).scheduled = some s.planned.1 ∧
      ∃ name, (Code.lowerProgram s.context o.lowering name s.planned.1.program).2 = [] ∧
        m = (Code.lowerProgram s.context o.lowering name s.planned.1.program).1 := by
  have hends := Artifacts.ends_ofSource o s
  generalize Artifacts.ofSource o s = x at h hends
  cases hends with
  | emitted hchecked _ _ hemit =>
    obtain rfl := Option.some.inj h
    exact ⟨no_errors_of_hasBlocking o s hchecked, rfl, emitProgram_eq_ok hemit⟩
  | _ => contradiction

section Complete

variable {o : Options} {s : Source} (hall : o.stopAfter = none) (hdeny : o.denyWarnings = false)
  (hparsed : s.parsed.hasFatalFrom .parser = false)
  (hchecked : s.diagnostics.hasBlocking = false) (hplanned : s.planned.2 = [])
  (hlowered : (Code.lowerProgram s.context o.lowering ((fileName? s.path).getD "keel")
    s.planned.1.program).2 = [])
  (hfree : ¬Code.PrintTaken o.printSymbol s.calls)
include hall hdeny hparsed hchecked hplanned hlowered hfree

/-- A compilation of all passes gives the code of the program with its cleanup, if nothing blocks
and the name of the print routine is not taken. -/
theorem ofSource_module_eq :
    (Artifacts.ofSource o s).module = some (Code.lowerProgram s.context o.lowering
      ((fileName? s.path).getD "keel") s.planned.1.program).1 := by
  have hruns (pass : Pass) : o.runsPast pass = true := by simp [Options.runsPast, hall]
  have hdiagnostics : Artifacts.deny o s.diagnostics = s.diagnostics := by
    simp [Artifacts.deny, hdeny]
  have hclean := no_errors_of_hasBlocking o s (hdiagnostics.symm ▸ hchecked)
  have hverified := (s.verify_lowerProgram_iff hclean o.lowering _ hlowered).2 hfree
  have hemitted : Code.emitProgram s.context o.lowering s s.planned.1.program =
      .ok (Code.lowerProgram s.context o.lowering ((fileName? s.path).getD "keel")
        s.planned.1.program).1 := by
    simp [Code.emitProgram, hlowered, hverified]
  have hcleaned : s.cleaned o = s.diagnostics := by
    rw [Source.cleaned, hdiagnostics, hplanned]
    exact append_nil _
  have hends := Artifacts.ends_ofSource o s
  generalize Artifacts.ofSource o s = x at hends ⊢
  cases hends with
  | scanned hstop => simp [hruns] at hstop
  | parsed hstop => simp [hruns, hparsed] at hstop
  | checked hstop => simp [hruns, hdiagnostics, hchecked] at hstop
  | cleaned hstop => simp [hruns, hcleaned, hchecked] at hstop
  | rejected _ hemit =>
    rw [hemitted] at hemit
    contradiction
  | emitted _ _ _ hemit => exact congrArg some (Except.ok.inj (hemit.symm.trans hemitted))

end Complete

theorem compileText_module (o : Options) (name : String) (text : List Char) :
    (compileText o name text).module = (Artifacts.ofSource o (.ofText 0 name text)).module :=
  rfl

theorem compileText_scheduled {o : Options} {text : List Char}
    (hm : (compileText o name text).module = some m) :
    (compileText o name text).scheduled = some (Source.ofText 0 name text).planned.1 :=
  (ofSource_module hm).2.1

end Compilation

end DeferLang
