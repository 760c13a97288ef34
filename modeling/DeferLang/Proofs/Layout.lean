import DeferLang.Compile.Outcome
import DeferLang.Proofs.StableFormat
import DeferLang.Proofs.UnspannedCode

/-!
# Layout does not change a compilation

White space, comments and the way in which a number is written do not show in the
kinds of the tokens of a text.  Every pass behind scanning works on the kinds
alone: it makes the same of two texts, up to spans and the words that quote the
text.  Their compilations therefore end with the same status, the same program and
code, and diagnostics of the same gist (`compileText_eq_of_kinds`).
-/

namespace DeferLang

open List

section Gist

/-- What a diagnostic says apart from its words and places. -/
structure Gist where
  layer : Layer
  severity : Severity
  code : Nat
  /-- How many places of the text the diagnostic points at. -/
  places : Nat
deriving DecidableEq

def Diagnostic.gist (d : Diagnostic) : Gist :=
  ⟨d.layer, d.severity, d.code, d.anchors.length⟩

/-- The gists of diagnostics, in the order in which they were pushed. -/
def Diagnostics.gists (ds : Diagnostics) : List Gist :=
  ds.map Diagnostic.gist

namespace Diagnostics

variable {ds ds' es es' : Diagnostics}

theorem gists_append (h : ds'.gists = ds.gists) (h' : es'.gists = es.gists) :
    (ds' ++ es').gists = (ds ++ es).gists := by
  rw [gists, map_append]
  exact (congrArg₂ (· ++ ·) h h').trans map_append.symm

/-- A test that looks at the gist only. -/
theorem any_eq_of_gists (test : Diagnostic → Bool) (onGist : Gist → Bool)
    (htest : ∀ d, test d = onGist d.gist) (h : ds'.gists = ds.gists) :
    ds'.any test = ds.any test := by
  have hany (ds : Diagnostics) : ds.any test = ds.gists.any onGist := by
    rw [gists, any_map]
    exact congrArg ds.any (funext htest)
  rw [hany, hany, h]

theorem hasBlocking_eq_of_gists (h : ds'.gists = ds.gists) : ds'.hasBlocking = ds.hasBlocking :=
  any_eq_of_gists _ (fun g => g.severity.isBlocking) (fun _ => rfl) h

theorem hasFatalFrom_eq_of_gists (layer : Layer) (h : ds'.gists = ds.gists) :
    ds'.hasFatalFrom layer = ds.hasFatalFrom layer :=
  any_eq_of_gists _ (fun g => g.layer = layer ∧ g.severity = .fatal) (fun _ => rfl) h

theorem gists_deny (o : Options) (h : ds'.gists = ds.gists) :
    gists (Artifacts.deny o ds') = gists (Artifacts.deny o ds) := by
  have hescalate (ds : Diagnostics) : gists ds.escalateWarnings =
      ds.gists.map fun g => { g with severity := g.severity.escalate } := by
    rw [gists, gists, escalateWarnings, map_map, map_map]
    rfl
  unfold Artifacts.deny
  split
  · rw [hescalate, hescalate, h]
  · exact h

end Diagnostics

theorem Status.ofDiagnostics_eq_of_gists {ds ds' : Diagnostics} (h : ds'.gists = ds.gists) :
    Status.ofDiagnostics ds' = Status.ofDiagnostics ds := by
  have hloader := Diagnostics.any_eq_of_gists (fun d => d.layer = .loader ∧ d.isBlocking)
    (fun g => g.layer = .loader ∧ g.severity.isBlocking) (fun _ => rfl) h
  have hverify := Diagnostics.any_eq_of_gists (fun d => d.code = Code.verifyCode)
    (fun g => g.code = Code.verifyCode) (fun _ => rfl) h
  simp only [ofDiagnostics, hloader, hverify, Diagnostics.hasBlocking_eq_of_gists h]

/-- The diagnostics of two files for faults that agree without their places. -/
theorem gists_map_eq {ε : Type} {unspanned : ε → ε} {diagnose : Source → ε → Diagnostic}
    (hgist : ∀ s s' e, (diagnose s (unspanned e)).gist = (diagnose s' e).gist) {es es' : List ε}
    (h : es'.map unspanned = es.map unspanned) (s s' : Source) :
    Diagnostics.gists (es'.map (diagnose s')) = Diagnostics.gists (es.map (diagnose s)) := by
  have hmap (s' : Source) (es : List ε) : Diagnostics.gists (es.map (diagnose s')) =
      (es.map unspanned).map fun e => (diagnose s e).gist := by
    rw [Diagnostics.gists, map_map, map_map]
    exact map_congr_left fun e _ => (hgist s s' e).symm
  rw [hmap, hmap, h]

section Faults

variable (s s' : Source)

theorem gist_parseError (e : ParseError) :
    (e.erase.toDiagnostic s).gist = (e.toDiagnostic s').gist := by
  have hfatal : e.erase.fault.isFatal = e.fault.isFatal := e.fault.isFatal_erase
  have hcode : e.erase.fault.code = e.fault.code := e.fault.code_erase
  simp only [Diagnostic.gist, ParseError.toDiagnostic, hfatal, hcode]
  rfl

theorem gist_typingError (e : TypingError) :
    (e.unspanned.toDiagnostic s).gist = (e.toDiagnostic s').gist :=
  rfl

theorem gist_cleanupError (e : CleanupError) :
    (e.unspanned.toDiagnostic s).gist = (e.toDiagnostic s').gist := by
  obtain ⟨fault, place⟩ := e
  cases place <;> rfl

theorem gist_lowerError (e : Code.LowerError) :
    (e.unspanned.toDiagnostic s).gist = (e.toDiagnostic s').gist :=
  rfl

end Faults

end Gist

section Passes

variable {p p' : Program} {ctx ctx' : Context} {ds ds' : Diagnostics} {s s' : Source}

theorem scheduleCleanup_eq_of_unspanned (hprogram : p'.unspanned = p.unspanned)
    (hcontext : ctx'.unspanned = ctx.unspanned) (hgists : ds'.gists = ds.gists) :
    (p'.scheduleCleanup ctx' ds').1.map (·.program.unspanned) =
        (p.scheduleCleanup ctx ds).1.map (·.program.unspanned) ∧
      (p'.scheduleCleanup ctx' ds').2.map CleanupError.unspanned =
        (p.scheduleCleanup ctx ds).2.map CleanupError.unspanned := by
  have hplan := p.planCleanup_unspanned ctx
  have hplan' := p'.planCleanup_unspanned ctx'
  rw [hprogram, hcontext] at hplan'
  have hcovers : ctx'.covers p' = ctx.covers p := by
    rw [← ctx'.covers_unspanned, hprogram, hcontext, ctx.covers_unspanned]
  simp only [Program.scheduleCleanup, Diagnostics.hasBlocking_eq_of_gists hgists, hcovers]
  split
  · exact ⟨rfl, rfl⟩
  split
  · exact ⟨congrArg some (hplan'.1.symm.trans hplan.1), hplan'.2.symm.trans hplan.2⟩
  · exact ⟨rfl, rfl⟩

/-- What emission gives, up to spans. -/
def Code.emitted : Except Diagnostics Code.Module → Except (List Gist) Code.Module
  | .ok m => .ok m.unspanned
  | .error ds => .error ds.gists

theorem emitted_eq_of_unspanned (options : Code.LowerOptions) (hpath : s'.path = s.path)
    (hprogram : p'.unspanned = p.unspanned) (hcontext : ctx'.unspanned = ctx.unspanned) :
    Code.emitted (Code.emitProgram ctx' options s' p') =
      Code.emitted (Code.emitProgram ctx options s p) := by
  obtain ⟨name, hname⟩ : ∃ name, (fileName? s.path).getD "keel" = name := ⟨_, rfl⟩
  have hlower := Code.lowerProgram_unspanned ctx options name p
  have hlower' := Code.lowerProgram_unspanned ctx' options name p'
  rw [hprogram, hcontext, hlower] at hlower'
  obtain ⟨hmodule, herrors⟩ := Prod.mk.inj hlower'
  have hempty := congrArg List.isEmpty herrors
  rw [isEmpty_map, isEmpty_map] at hempty
  have hgists := gists_map_eq gist_lowerError herrors s' s
  have hverify := congrArg Code.Module.verify hmodule
  rw [Code.Module.verify_unspanned, Code.Module.verify_unspanned] at hverify
  simp only [Code.emitProgram, hpath, hname, ← hempty, ← hverify]
  split
  · -- the module is the same, and verifies on both sides or on none
    split
    · exact congrArg Except.ok hmodule.symm
    · rfl
  · exact congrArg Except.error hgists.symm

end Passes

namespace Artifacts

/-- What the passes made of two sources, compared without spans. -/
structure Agree (a a' : Artifacts) : Prop where
  diagnostics : a'.diagnostics.gists = a.diagnostics.gists
  program : a'.program.map Program.unspanned = a.program.map Program.unspanned
  scheduled : a'.scheduled.map (·.program.unspanned) = a.scheduled.map (·.program.unspanned)
  module : a'.module.map Code.Module.unspanned = a.module.map Code.Module.unspanned

variable (o : Options) {s s' : Source} {p p' : Program} {ds ds' : Diagnostics}

/-- Target code, for programs with their cleanup that agree without spans. -/
theorem agree_emitted {ctx ctx' : Context} (hpath : s'.path = s.path)
    {result result' : ScheduledProgram} (hprogram : p'.unspanned = p.unspanned)
    (hresult : result'.program.unspanned = result.program.unspanned)
    (hcontext : ctx'.unspanned = ctx.unspanned) (hgists : ds'.gists = ds.gists) :
    Agree
      (match Code.emitProgram ctx o.lowering s result.program with
        | .ok module => { diagnostics := ds, program := p, scheduled := result, module }
        | .error found => { diagnostics := ds ++ found, program := p, scheduled := result })
      (match Code.emitProgram ctx' o.lowering s' result'.program with
        | .ok module => { diagnostics := ds', program := p', scheduled := result', module }
        | .error found =>
          { diagnostics := ds' ++ found, program := p', scheduled := result' }) := by
  have hkept : some p'.unspanned = some p.unspanned := congrArg some hprogram
  have hplanned : some result'.program.unspanned = some result.program.unspanned :=
    congrArg some hresult
  have hemitted := emitted_eq_of_unspanned o.lowering hpath hresult hcontext
  cases hemit : Code.emitProgram ctx o.lowering s result.program with
  | ok m =>
    cases hemit' : Code.emitProgram ctx' o.lowering s' result'.program with
    | ok m' =>
      rw [hemit, hemit'] at hemitted
      exact ⟨hgists, hkept, hplanned, congrArg some (Except.ok.inj hemitted)⟩
    | error found' =>
      rw [hemit, hemit'] at hemitted
      simp [Code.emitted] at hemitted
  | error found =>
    cases hemit' : Code.emitProgram ctx' o.lowering s' result'.program with
    | ok m' =>
      rw [hemit, hemit'] at hemitted
      simp [Code.emitted] at hemitted
    | error found' =>
      rw [hemit, hemit'] at hemitted
      exact ⟨Diagnostics.gists_append hgists (Except.error.inj hemitted), hkept, hplanned, rfl⟩

/-- Cleanup and target code, for checked programs that agree without spans. -/
theorem agree_ofChecked {ctx ctx' : Context} (hpath : s'.path = s.path)
    (hprogram : p'.unspanned = p.unspanned) (hcontext : ctx'.unspanned = ctx.unspanned)
    (hgists : ds'.gists = ds.gists) :
    Agree (ofChecked o s p ctx ds) (ofChecked o s' p' ctx' ds') := by
  obtain ⟨hscheduled, herrors⟩ := scheduleCleanup_eq_of_unspanned hprogram hcontext hgists
  have hpushed := Diagnostics.gists_append hgists (gists_map_eq gist_cleanupError herrors s s')
  have hblocking := Diagnostics.hasBlocking_eq_of_gists hpushed
  unfold ofChecked
  generalize p.scheduleCleanup ctx ds = plan at hscheduled hpushed hblocking ⊢
  generalize p'.scheduleCleanup ctx' ds' = plan' at hscheduled hpushed hblocking ⊢
  obtain ⟨planned, errors⟩ := plan
  obtain ⟨planned', errors'⟩ := plan'
  cases planned with
  | none =>
    obtain rfl := Option.map_eq_none_iff.1 hscheduled
    exact ⟨hpushed, congrArg some hprogram, rfl, rfl⟩
  | some result =>
    obtain ⟨result', rfl, hresult⟩ := Option.map_eq_some_iff.1 hscheduled
    simp only [hblocking]
    split
    · exact ⟨hpushed, congrArg some hprogram, congrArg some hresult, rfl⟩
    · exact agree_emitted o hpath hprogram hresult hcontext hpushed

/-- The passes behind parsing, for programs that agree without spans. -/
theorem agree_ofParsed (hpath : s'.path = s.path) (hprogram : p'.unspanned = p.unspanned)
    (hgists : ds'.gists = ds.gists) : Agree (ofParsed o s p ds) (ofParsed o s' p' ds') := by
  have hcheck := p.check_unspanned
  have hcheck' := p'.check_unspanned
  rw [hprogram, hcheck] at hcheck'
  obtain ⟨hcontext, herrors⟩ := Prod.mk.inj hcheck'
  have hpushed := Diagnostics.gists_deny o
    (Diagnostics.gists_append hgists (gists_map_eq gist_typingError herrors.symm s s'))
  simp only [ofParsed, Diagnostics.hasBlocking_eq_of_gists hpushed]
  split
  · exact ⟨hpushed, congrArg some hprogram, rfl, rfl⟩
  · exact agree_ofChecked o hpath hprogram hcontext.symm hpushed

/-- All passes, for sources whose tokens have the same kinds. -/
theorem agree_ofSource (hpath : s'.path = s.path) (hscan : scanErrors s.text = [])
    (hscan' : scanErrors s'.text = [])
    (hkinds : (tokens s'.text).map Token.kind = (tokens s.text).map Token.kind) :
    Agree (ofSource o s) (ofSource o s') := by
  have herased (text : List Char) : (tokens text).map Token.erase =
      ((tokens text).map Token.kind).map fun kind => ⟨kind, "", .blank⟩ := by
    rw [map_map]
    rfl
  have hparse := parseProgram_erase (tokens s.text)
  have hparse' := parseProgram_erase (tokens s'.text)
  rw [herased, hkinds, ← herased, hparse] at hparse'
  obtain ⟨hprogram, herrors⟩ := Prod.mk.inj hparse'
  have hgists := gists_map_eq gist_parseError herrors.symm s s'
  simp only [ofSource, hscan, hscan', map_nil, nil_append,
    Diagnostics.hasFatalFrom_eq_of_gists .parser hgists]
  split
  · exact ⟨rfl, rfl, rfl, rfl⟩
  split
  · exact ⟨hgists, congrArg some hprogram.symm, rfl, rfl⟩
  · exact agree_ofParsed o hpath hprogram.symm hgists

end Artifacts

section Outcomes

variable {o : Options} {files files' : FileTable} {a a' : Artifacts}

theorem Artifacts.Agree.status_eq (h : Agree a a') :
    (Outcome.ofArtifacts o files' a').status = (Outcome.ofArtifacts o files a).status :=
  Status.ofDiagnostics_eq_of_gists (Diagnostics.gists_deny o h.diagnostics)

/-- Programs are printed without their spans. -/
theorem Artifacts.Agree.astText?_eq (h : Agree a a') :
    (Outcome.ofArtifacts o files' a').astText? = (Outcome.ofArtifacts o files a).astText? := by
  have htext (x : Outcome) : x.astText? =
      ((x.scheduled.map (·.program.unspanned)).or (x.program.map Program.unspanned)).map
        Program.format := by
    unfold Outcome.astText?
    cases x.scheduled with
    | none =>
      cases x.program with
      | none => rfl
      | some p => exact congrArg some (p.format_erase _).symm
    | some r => exact congrArg some (r.program.format_erase _).symm
  rw [htext, htext]
  exact congrArg₂ (fun r p => (Option.or r p).map Program.format) h.scheduled h.program

theorem Artifacts.Agree.irText?_eq (h : Agree a a') :
    (Outcome.ofArtifacts o files' a').irText? = (Outcome.ofArtifacts o files a).irText? := by
  have htext (x : Outcome) :
      x.irText? = (x.module.map Code.Module.unspanned).map Code.Module.text := by
    unfold Outcome.irText?
    cases x.module with
    | none => rfl
    | some m => exact congrArg some m.text_unspanned.symm
  rw [htext, htext]
  exact congrArg (Option.map Code.Module.text) h.module

end Outcomes

/-- Two texts without lexical errors whose tokens have the same kinds are compiled alike: with the
same status, the same program, the same target code, and diagnostics that agree one by one in
layer, severity, code and number of places. -/
theorem compileText_eq_of_kinds (o : Options) (name : String) (text text' : List Char)
    (hscan : scanErrors text = []) (hscan' : scanErrors text' = [])
    (hkinds : (tokens text').map Token.kind = (tokens text).map Token.kind) :
    let x := compileText o name text
    let x' := compileText o name text'
    x'.status = x.status ∧ x'.astText? = x.astText? ∧ x'.irText? = x.irText? ∧
      x'.diagnostics.gists = x.diagnostics.gists := by
  intro x x'
  have hpath : (FileTable.add {} name text').2.path = (FileTable.add {} name text).2.path := rfl
  have hagree := Artifacts.agree_ofSource o hpath hscan hscan' hkinds
  exact ⟨hagree.status_eq, hagree.astText?_eq, hagree.irText?_eq,
    Diagnostics.gists_deny o hagree.diagnostics⟩

/-- A program with a fault and a warning, on one line. -/
def denseText : List Char :=
  "fn main()\x7bint x=7;bool idle=x;defer close(x);print(x);\x7d".toList

/-- The same program with a comment, blanks, and zeros in front of its number. -/
def spreadText : List Char :=
  ("// seven\nfn main() \x7b\n  int x = 007;\n  bool idle = x;\n" ++
    "  defer close(x);\n  print(x);\n\x7d\n").toList

theorem compileText_eq_of_kinds_spreadText :
    scanErrors denseText = [] ∧ scanErrors spreadText = [] ∧
      (tokens spreadText).map Token.kind = (tokens denseText).map Token.kind ∧
      (compileText {} "seven" spreadText).status = .failed ∧
      (compileText {} "seven" spreadText).diagnostics.gists =
        [⟨.semantic, .error, 4002, 1⟩, ⟨.semantic, .warning, 4005, 1⟩] := by
  have hscan : scanErrors denseText = [] := by decide +kernel
  have hscan' : scanErrors spreadText = [] := by decide +kernel
  have hkinds : (tokens spreadText).map Token.kind = (tokens denseText).map Token.kind := by
    decide +kernel
  have hstatus : (compileText {} "seven" denseText).status = .failed := by decide +kernel
  have hgists : (compileText {} "seven" denseText).diagnostics.gists =
      [⟨.semantic, .error, 4002, 1⟩, ⟨.semantic, .warning, 4005, 1⟩] := by
    decide +kernel
  obtain ⟨hsame, -, -, hsame'⟩ :=
    compileText_eq_of_kinds {} "seven" denseText spreadText hscan hscan' hkinds
  exact ⟨hscan, hscan', hkinds, hsame.trans hstatus, hsame'.trans hgists⟩

end DeferLang
