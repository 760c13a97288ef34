import DeferLang.Proofs.DeferErrors
import DeferLang.Proofs.VerifiedCode

/-!
# What a compilation keeps and what its status says

A compilation that runs further keeps what a shorter one found: every pass only
adds to the diagnostics, and a program that is held once stays.  The status is
`success` if and only if nothing blocks, and target code is there if and only if
all passes ran with success.  Cleanup is only scheduled for programs that are
ready for it.
-/

namespace DeferLang

open List

section Escalation

theorem Severity.escalate_escalate (v : Severity) : v.escalate.escalate = v.escalate := by
  cases v <;> rfl

theorem Severity.escalate_eq_self {v : Severity} (h : v ≠ .warning) : v.escalate = v := by
  cases v <;> simp_all [escalate]

theorem Severity.isBlocking_escalate {v : Severity} (h : v.isBlocking = true) :
    v.escalate.isBlocking = true := by
  cases v <;> simp_all [escalate, isBlocking]

theorem Severity.isBlocking_iff (v : Severity) : v.isBlocking = true ↔ v = .error ∨ v = .fatal := by
  cases v <;> simp [isBlocking]

namespace Artifacts

variable (o : Options)

theorem deny_append (ds es : Diagnostics) : deny o (ds ++ es) = deny o ds ++ deny o es := by
  simp only [deny, Diagnostics.escalateWarnings]
  split <;> simp

theorem deny_deny (ds : Diagnostics) : deny o (deny o ds) = deny o ds := by
  simp only [deny, Diagnostics.escalateWarnings]
  split <;> simp [Function.comp_def, Severity.escalate_escalate]

/-- Without warnings there is nothing to escalate. -/
theorem deny_eq_self {ds : Diagnostics} (h : ∀ d ∈ ds, d.severity ≠ .warning) : deny o ds = ds := by
  have hmap : ds.escalateWarnings = ds := by
    rw [Diagnostics.escalateWarnings]
    conv_rhs => rw [← map_id ds]
    refine map_congr_left fun d hd => ?_
    rw [Severity.escalate_eq_self (h d hd)]
    rfl
  simp [deny, hmap]

theorem prefix_deny {ds es : Diagnostics} (h : ds <+: es) : deny o ds <+: deny o es := by
  obtain ⟨more, rfl⟩ := h
  rw [deny_append]
  exact prefix_append _ _

/-- What blocks goes on to block. -/
theorem hasBlocking_deny {ds : Diagnostics} (h : ds.hasBlocking = true) :
    (deny o ds).hasBlocking = true := by
  simp only [deny, Diagnostics.escalateWarnings]
  split
  · obtain ⟨d, hd, hblocks⟩ := any_eq_true.1 h
    exact any_eq_true.2 ⟨_, mem_map_of_mem hd, Severity.isBlocking_escalate hblocks⟩
  · exact h

end Artifacts

end Escalation

/- Two compilations of a source that differ in where they stop. -/
section Stops

/-- The place of a last pass in the order of stopping.  No last pass stops last of all. -/
def stopRank : Option Pass → Nat
  | none => Pass.all.length
  | some pass => pass.rank

/-- The options that stop behind another pass. -/
def Options.stopping (o : Options) (last : Option Pass) : Options :=
  { o with stopAfter := last }

theorem Options.runsPast_mono {o : Options} {a b : Option Pass} (h : stopRank a ≤ stopRank b)
    {pass : Pass} (hruns : (o.stopping a).runsPast pass = true) :
    (o.stopping b).runsPast pass = true := by
  cases b with
  | none => rfl
  | some last =>
    cases a with
    | none =>
      -- nothing stops as late as no last pass at all
      exfalso
      revert h
      cases last <;> decide
    | some first =>
      have hfirst : pass.rank < first.rank := of_decide_eq_true hruns
      have hle : first.rank ≤ last.rank := h
      exact decide_eq_true (by omega)

namespace Artifacts

/-- What is there already is kept: diagnostics are only added, programs stay. -/
structure KeptBy (o : Options) (x y : Artifacts) : Prop where
  diagnostics : deny o x.diagnostics <+: deny o y.diagnostics
  program : ∀ p, x.program = some p → y.program = some p
  scheduled : ∀ r, x.scheduled = some r → y.scheduled = some r

variable {o : Options} {a b : Option Pass} {x y : Artifacts}

theorem KeptBy.refl (o : Options) (x : Artifacts) : KeptBy o x x :=
  ⟨prefix_refl _, fun _ h => h, fun _ h => h⟩

theorem KeptBy.of_stopping (h : KeptBy (o.stopping a) x y) : KeptBy o x y :=
  ⟨h.diagnostics, h.program, h.scheduled⟩

/-- Two compilations meet a point at which one of them may stop. -/
theorem KeptBy.gate (h : stopRank a ≤ stopRank b) (pass : Pass) (blocked : Prop)
    [Decidable blocked] {stop : Artifacts} (hstop : KeptBy o stop y) (hgo : KeptBy o x y) :
    KeptBy o (if (o.stopping a).runsPast pass = false ∨ blocked then stop else x)
      (if (o.stopping b).runsPast pass = false ∨ blocked then stop else y) := by
  by_cases hblocked : blocked
  · simp only [hblocked, or_true, if_true]
    exact .refl o stop
  simp only [hblocked, or_false]
  cases hruns : (o.stopping a).runsPast pass with
  | true =>
    rw [Options.runsPast_mono h hruns]
    exact hgo
  | false =>
    cases (o.stopping b).runsPast pass with
    | true => exact hstop
    | false => exact .refl o stop

/-- The passes behind checking keep the diagnostics and the program. -/
theorem keptBy_ofChecked (o o' : Options) (s : Source) (program : Program) (ctx : Context)
    (checked : Diagnostics) :
    KeptBy o { diagnostics := checked, program } (ofChecked o' s program ctx checked) := by
  have hkept {z : Artifacts} (hds : checked <+: z.diagnostics) (hprogram : z.program = program) :
      KeptBy o { diagnostics := checked, program } z :=
    ⟨prefix_deny o hds, fun p hp => hprogram.trans hp, nofun⟩
  unfold ofChecked
  dsimp only
  split
  · exact hkept (prefix_append _ _) rfl
  · split
    · exact hkept (prefix_append _ _) rfl
    · split
      · exact hkept (prefix_append _ _) rfl
      · exact hkept ((prefix_append _ _).trans (prefix_append _ _)) rfl

theorem keptBy_ofChecked_stopping (h : stopRank a ≤ stopRank b) (s : Source) (program : Program)
    (ctx : Context) (checked : Diagnostics) :
    KeptBy o (ofChecked (o.stopping a) s program ctx checked)
      (ofChecked (o.stopping b) s program ctx checked) := by
  unfold ofChecked
  cases program.scheduleCleanup ctx checked with
  | mk scheduled errors =>
    cases scheduled with
    | none => exact .refl o _
    | some result =>
      refine .gate h .cleanup _ ?_ (.refl o _)
      cases Code.emitProgram ctx (o.stopping b).lowering s result.program with
      | ok module => exact ⟨prefix_refl _, fun _ hp => hp, fun _ hr => hr⟩
      | error found =>
        exact ⟨prefix_deny o (prefix_append _ _), fun _ hp => hp, fun _ hr => hr⟩

theorem keptBy_ofParsed (o : Options) (s : Source) (program : Program) (parsed : Diagnostics) :
    KeptBy o { diagnostics := parsed, program } (ofParsed o s program parsed) := by
  have hkept {z : Artifacts} (h : KeptBy o { diagnostics := deny o (parsed ++
      program.check.2.map (TypingError.toDiagnostic s)), program } z) :
      KeptBy o { diagnostics := parsed, program } z := by
    refine ⟨?_, h.program, nofun⟩
    have hds := h.diagnostics
    rw [deny_deny] at hds
    exact (prefix_deny o (prefix_append _ _)).trans hds
  unfold ofParsed
  dsimp only
  split
  · exact hkept (.refl o _)
  · exact hkept (keptBy_ofChecked o o s program _ _)

theorem keptBy_ofParsed_stopping (h : stopRank a ≤ stopRank b) (s : Source) (program : Program)
    (parsed : Diagnostics) :
    KeptBy o (ofParsed (o.stopping a) s program parsed)
      (ofParsed (o.stopping b) s program parsed) :=
  .gate h .check _ (keptBy_ofChecked o _ s program _ _) (keptBy_ofChecked_stopping h s program _ _)

theorem keptBy_ofSource_stopping (h : stopRank a ≤ stopRank b) (s : Source) :
    KeptBy o (ofSource (o.stopping a) s) (ofSource (o.stopping b) s) := by
  unfold ofSource
  generalize (scanErrors s.text).map (ScanError.toDiagnostic s) = scanned
  cases parseProgram (tokens s.text) with
  | mk program errors =>
    dsimp only
    generalize errors.map (ParseError.toDiagnostic s) = found
    have hparsed := (keptBy_ofParsed (o.stopping b) s program (scanned ++ found)).of_stopping
    have hgo := KeptBy.gate h .parse (Diagnostics.hasFatalFrom (scanned ++ found) .parser)
      hparsed (keptBy_ofParsed_stopping h s program (scanned ++ found))
    have hscanned : KeptBy o { diagnostics := scanned }
        (if (o.stopping b).runsPast .parse = false ∨
            Diagnostics.hasFatalFrom (scanned ++ found) .parser then
          { diagnostics := scanned ++ found, program }
        else ofParsed (o.stopping b) s program (scanned ++ found)) := by
      refine ⟨(prefix_deny o (prefix_append scanned found)).trans ?_, nofun, nofun⟩
      split
      · exact prefix_refl _
      · exact hparsed.diagnostics
    -- nothing but the options stops a compilation behind scanning
    simpa only [or_false] using KeptBy.gate h .scan False hscanned hgo

end Artifacts

/-- Running more passes changes nothing that fewer passes found: the diagnostics of the shorter
compilation are the first ones of the longer one, with the same severities, and a program or a
program with its cleanup that the shorter one holds is what the longer one holds. -/
theorem longer_compilation_keeps (o : Options) {a b : Option Pass} (h : stopRank a ≤ stopRank b)
    (name : String) (text : List Char) :
    (compileText { o with stopAfter := a } name text).diagnostics <+:
        (compileText { o with stopAfter := b } name text).diagnostics ∧
      (∀ p, (compileText { o with stopAfter := a } name text).program = some p →
        (compileText { o with stopAfter := b } name text).program = some p) ∧
      ∀ r, (compileText { o with stopAfter := a } name text).scheduled = some r →
        (compileText { o with stopAfter := b } name text).scheduled = some r := by
  have hkept := Artifacts.keptBy_ofSource_stopping (o := o) h (.ofText 0 name text)
  exact ⟨hkept.diagnostics, hkept.program, hkept.scheduled⟩

/-- A text with a warning about a variable that nothing uses. -/
def idleLocal : List Char :=
  "fn main() \x7b int idle = 1; print(2); \x7d".toList

theorem longer_compilation_keeps_idleLocal :
    stopRank (some .check) ≤ stopRank none ∧
      (compileText { denyWarnings := true, stopAfter := some .check }
        "idle" idleLocal).diagnostics.map Diagnostic.severity = [.error] ∧
      (compileText { denyWarnings := true, stopAfter := some .check }
        "idle" idleLocal).diagnostics <+:
        (compileText { denyWarnings := true } "idle" idleLocal).diagnostics := by
  have h : stopRank (some .check) ≤ stopRank none := by decide
  refine ⟨h, by decide +kernel, ?_⟩
  exact (longer_compilation_keeps { denyWarnings := true } h "idle" idleLocal).1

end Stops

/- What planning reports concerns a `defer`, never the program as a whole. -/
section Plan

/-- Errors about a `defer`. -/
def CleanupError.IsOfDefer (e : CleanupError) : Prop :=
  e.fault.code ≠ CleanupFault.notReadyCode

variable (ctx : Context)

theorem isOfDefer_planDefer (t : ScopeCleanup) (call : Call) (returnFollows : Bool) :
    ∀ e ∈ (Cleanup.planDefer ctx t call returnFollows).2, e.IsOfDefer := by
  have hconditional (effects : List DeferEffect) :
      ∀ e ∈ Cleanup.deferFaults ctx t returnFollows effects, e.IsOfDefer := by
    intro e he
    unfold Cleanup.deferFaults at he
    split at he
    · obtain ⟨effect, -, rfl⟩ := mem_map.1 he
      simp [CleanupError.IsOfDefer, CleanupFault.code, CleanupFault.notReadyCode]
    · simp at he
  unfold Cleanup.planDefer
  dsimp only
  split
  · simp [CleanupError.IsOfDefer, CleanupFault.code, CleanupFault.notReadyCode]
  · split
    · simp
    · exact hconditional _

/-- All that planning a program reports concerns its `defer`s. -/
theorem isOfDefer_planCleanup (p : Program) : ∀ e ∈ (p.planCleanup ctx).2, e.IsOfDefer := by
  have hpoint (q : Point) : ∀ e ∈ q.plannedErrors ctx, e.IsOfDefer := by
    unfold Point.plannedErrors
    split
    · exact isOfDefer_planDefer ctx _ _ _
    · exact forall_mem_nil _
  intro e he
  rw [errors_planCleanup, mem_flatMap] at he
  obtain ⟨body, -, he⟩ := he
  rw [errors_planBody, mem_flatMap] at he
  obtain ⟨q, -, he⟩ := he
  exact hpoint q e he

end Plan

section Status

/-- Diagnostics of passes that were called as they should: no program came to cleanup too early, and
a failed verification blocks. -/
def Diagnostics.Regular (ds : Diagnostics) : Prop :=
  ∀ d ∈ ds, d.code ≠ CleanupFault.notReadyCode ∧ (d.code = Code.verifyCode → d.isBlocking = true)

namespace Diagnostics

variable {ds es : Diagnostics}

theorem Regular.deny (h : ds.Regular) (o : Options) : (Artifacts.deny o ds).Regular :=
  Artifacts.forall_deny
    (fun _ hd => ⟨hd.1, fun hcode => Severity.isBlocking_escalate (hd.2 hcode)⟩) h

theorem hasBlocking_append : hasBlocking (ds ++ es) = (hasBlocking ds || hasBlocking es) :=
  any_append

/-- The status of regular diagnostics is `success` exactly if none of them blocks. -/
theorem Regular.status_eq_success_iff (h : ds.Regular) :
    Status.ofDiagnostics ds = .success ↔ ds.hasBlocking = false := by
  unfold Status.ofDiagnostics
  cases hblocking : ds.hasBlocking with
  | true =>
    split
    · simp
    · split <;> simp
  | false =>
    have hnone : ∀ d ∈ ds, ¬d.isBlocking = true := any_eq_false.1 hblocking
    have hloader : ds.any (fun d => d.layer = .loader ∧ d.isBlocking) = false := by
      rw [any_eq_false]
      exact fun d hd hboth => hnone d hd (of_decide_eq_true hboth).2
    have hverify : ds.any (·.code = Code.verifyCode) = false := by
      rw [any_eq_false]
      exact fun d hd hcode => hnone d hd ((h d hd).2 (of_decide_eq_true hcode))
    rw [hloader, hverify]
    simp

end Diagnostics

/-- What is reported when there is no module is regular and blocks. -/
theorem emitProgram_error {ctx : Context} {options : Code.LowerOptions} {s : Source} {p : Program}
    {found : Diagnostics} (h : Code.emitProgram ctx options s p = .error found) :
    found.Regular ∧ found.hasBlocking = true := by
  unfold Code.emitProgram at h
  dsimp only at h
  split at h
  · split at h
    · contradiction
    · rename_i e _
      obtain rfl := Except.error.inj h
      refine ⟨?_, rfl⟩
      simp [Diagnostics.Regular, Code.VerifyError.toDiagnostic, CleanupFault.notReadyCode,
        CleanupFault.code, Code.verifyCode, Diagnostic.isBlocking, Severity.isBlocking]
  · rename_i hsome
    obtain rfl := Except.error.inj h
    refine ⟨forall_mem_map.2 fun e _ => e.fault.code_ne.imp_right fun h hcode => absurd hcode h,
      ?_⟩
    obtain ⟨e, es, hcons⟩ := exists_cons_of_ne_nil fun hnil => hsome (isEmpty_iff.2 hnil)
    rw [hcons]
    rfl

/-- What a compilation made fits together: its diagnostics are regular, and there is a module
exactly if no pass was left out and nothing blocks. -/
structure Artifacts.Coherent (o : Options) (x : Artifacts) : Prop where
  regular : x.diagnostics.Regular
  module_iff : x.module.isSome = true ↔
    o.stopAfter = none ∧ (Artifacts.deny o x.diagnostics).hasBlocking = false

namespace Artifacts

variable {o : Options}

/-- Passes that stop before the last one are coherent if there is a reason to stop. -/
theorem coherent_of_stop {x : Artifacts} (pass : Pass) (hregular : x.diagnostics.Regular)
    (hmodule : x.module = none)
    (hstop : o.runsPast pass = false ∨ (deny o x.diagnostics).hasBlocking = true) :
    Coherent o x := by
  refine ⟨hregular, ?_⟩
  rw [hmodule]
  simp only [Option.isSome_none, Bool.false_eq_true, false_iff, not_and]
  intro hall hclear
  rcases hstop with hstop | hstop
  · simp [Options.runsPast, hall] at hstop
  · rw [hclear] at hstop
    contradiction

theorem regular_ofSource (o : Options) (s : Source) : (ofSource o s).diagnostics.Regular := by
  intro d hd
  have hreported := (ends_ofSource o s).reported d hd
  clear hd
  induction hreported with
  | @scan e => exact e.fault.code_ne.imp_right fun hne hcode => absurd hcode hne
  | @parse e => exact e.fault.code_ne.imp_right fun hne hcode => absurd hcode hne
  | @check e => exact e.fault.code_ne.imp_right fun hne hcode => absurd hcode hne
  | @cleanup e he =>
    exact ⟨isOfDefer_planCleanup s.context s.program e he,
      fun hcode => absurd hcode e.fault.code_ne_verifyCode⟩
  | emit _ hemit hd => exact (emitProgram_error hemit).1 _ hd
  | escalated _ ih => exact ⟨ih.1, fun hcode => Severity.isBlocking_escalate (ih.2 hcode)⟩

/-- Cleanup warns about nothing, so that nothing is left to escalate behind it. -/
theorem deny_cleaned (o : Options) (s : Source) : deny o (s.cleaned o) = s.cleaned o := by
  rw [Source.cleaned, deny_append, deny_deny]
  congr 1
  refine deny_eq_self o (forall_mem_map.2 fun e _ => ?_)
  obtain ⟨fault, place⟩ := e
  cases fault <;> simp [CleanupError.toDiagnostic, CleanupFault.severity]

theorem coherent_ofSource (o : Options) (s : Source) : Coherent o (ofSource o s) := by
  have hregular := regular_ofSource o s
  have hends := ends_ofSource o s
  generalize ofSource o s = x at hregular hends
  cases hends with
  | scanned hstop => exact coherent_of_stop .scan hregular rfl (.inl hstop)
  | parsed hstop =>
    refine coherent_of_stop .parse hregular rfl (hstop.imp_right fun hfatal => ?_)
    obtain ⟨d, hd, hboth⟩ := any_eq_true.1 hfatal
    refine hasBlocking_deny o (any_eq_true.2 ⟨d, hd, ?_⟩)
    rw [Diagnostic.isBlocking, (of_decide_eq_true hboth).2]
    rfl
  | checked hstop =>
    exact coherent_of_stop .check hregular rfl (hstop.imp_right (hasBlocking_deny o))
  | cleaned hstop =>
    exact coherent_of_stop .cleanup hregular rfl (hstop.imp_right (hasBlocking_deny o))
  | rejected _ hemit =>
    refine ⟨hregular, ?_⟩
    simp [deny_append, Diagnostics.hasBlocking_append,
      hasBlocking_deny o (emitProgram_error hemit).2]
  | emitted _ hruns hcleaned _ =>
    have hall : o.stopAfter = none := by
      cases hlast : o.stopAfter with
      | none => rfl
      | some last => cases last <;> simp [Options.runsPast, hlast, Pass.rank] at hruns
    refine ⟨hregular, ?_⟩
    simp [hall, deny_cleaned, hcleaned]

end Artifacts

end Status

/-- The status, the diagnostics and the module of every compilation agree: the status is `success`
exactly if no diagnostic is an error or fatal, there is a module exactly if all passes ran with
success, and cleanup never came to a program that was not ready for it. -/
theorem status_agrees_with_artifacts (o : Options) (name : String) (text : List Char) :
    ((compileText o name text).status = .success ↔
        ∀ d ∈ (compileText o name text).diagnostics, d.severity ≠ .error ∧ d.severity ≠ .fatal) ∧
      ((compileText o name text).module.isSome = true ↔
        (compileText o name text).status = .success ∧ o.stopAfter = none) ∧
      ∀ d ∈ (compileText o name text).diagnostics, d.code ≠ 5000 := by
  have hcoherent := Artifacts.coherent_ofSource o (.ofText 0 name text)
  have hregular := hcoherent.regular.deny o
  have hstatus := hregular.status_eq_success_iff
  refine ⟨?_, ?_, fun d hd => (hregular d hd).1⟩
  · refine hstatus.trans ?_
    rw [Diagnostics.hasBlocking, List.any_eq_false]
    refine forall₂_congr fun d _ => ?_
    rw [Diagnostic.isBlocking, Severity.isBlocking_iff, not_or]
  · refine hcoherent.module_iff.trans ?_
    rw [and_comm]
    exact and_congr_left' hstatus.symm

end DeferLang
