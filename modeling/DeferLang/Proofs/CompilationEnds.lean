import DeferLang.Compile.Outcome
import DeferLang.Proofs.ExitCleanup

/-!
# How a compilation ends

The passes over a source end in one of six ways (`Artifacts.ends_ofSource`).  Whichever it is,
every diagnostic is that of one pass, with the severity that the options leave it
(`Artifacts.Ends.reported`).
-/

namespace DeferLang

open List

namespace Source

variable (s : Source)

/-- The diagnostics of a source up to its tokens. -/
def scanned : Diagnostics :=
  (scanErrors s.text).map (ScanError.toDiagnostic s)

/-- The diagnostics of a source up to its tree. -/
def parsed : Diagnostics :=
  s.scanned ++ (parseProgram (tokens s.text)).2.map (ParseError.toDiagnostic s)

/-- The diagnostics of a source up to its cleanup. -/
def cleaned (o : Options) : Diagnostics :=
  Artifacts.deny o s.diagnostics ++ s.planned.2.map (CleanupError.toDiagnostic s)

end Source

variable {o : Options} {s : Source}

/-- What escalation keeps of single diagnostics, it keeps of all. -/
theorem Artifacts.forall_deny {Q : Diagnostic → Prop}
    (hQ : ∀ d, Q d → Q { d with severity := d.severity.escalate }) {ds : Diagnostics}
    (h : ∀ d ∈ ds, Q d) : ∀ d ∈ deny o ds, Q d := by
  unfold deny
  split
  · exact forall_mem_map.2 fun d hd => hQ d (h d hd)
  · exact h

/-- Without blocking diagnostics, a check found no error. -/
theorem no_errors_of_hasBlocking (o : Options) (s : Source) {parsed : Diagnostics}
    {errors : List TypingError}
    (h : (Artifacts.deny o (parsed ++ errors.map (TypingError.toDiagnostic s))).hasBlocking =
      false) : ∀ e ∈ errors, e.fault.severity ≠ .error := by
  intro e he hseverity
  have hmem : e.toDiagnostic s ∈ parsed ++ errors.map (TypingError.toDiagnostic s) :=
    mem_append_right _ (mem_map_of_mem he)
  unfold Artifacts.deny at h
  split at h
  · have hblocking := any_eq_false.1 h _ (mem_map_of_mem hmem)
    refine hblocking ?_
    change (e.fault.severity.escalate).isBlocking = true
    rw [hseverity]
    rfl
  · have hblocking := any_eq_false.1 h _ hmem
    refine hblocking ?_
    change e.fault.severity.isBlocking = true
    rw [hseverity]
    rfl

/- What a program that is not ready for cleanup and what code that does not verify is reported with,
no other pass reports. -/
section Codes

/-- The code of a program that is not ready for cleanup. -/
def CleanupFault.notReadyCode : Nat :=
  CleanupFault.code .earlierErrors

theorem ScanFault.code_ne (f : ScanFault) :
    f.code ≠ CleanupFault.notReadyCode ∧ f.code ≠ Code.verifyCode := by
  cases f <;> simp [code, CleanupFault.notReadyCode, CleanupFault.code, Code.verifyCode]

theorem ParseFault.code_ne (f : ParseFault) :
    f.code ≠ CleanupFault.notReadyCode ∧ f.code ≠ Code.verifyCode := by
  cases f <;> simp [code, CleanupFault.notReadyCode, CleanupFault.code, Code.verifyCode]

theorem TypingFault.code_ne (f : TypingFault) :
    f.code ≠ CleanupFault.notReadyCode ∧ f.code ≠ Code.verifyCode := by
  cases f <;> simp [code, CleanupFault.notReadyCode, CleanupFault.code, Code.verifyCode]

theorem CleanupFault.code_ne_verifyCode (f : CleanupFault) : f.code ≠ Code.verifyCode := by
  cases f <;> simp [code, Code.verifyCode]

theorem Code.LowerFault.code_ne (f : LowerFault) :
    f.code ≠ CleanupFault.notReadyCode ∧ f.code ≠ verifyCode := by
  cases f <;> simp [code, CleanupFault.notReadyCode, CleanupFault.code, verifyCode]

end Codes

namespace Artifacts

/-- The ways in which the passes over a source end: behind a pass that is the last or that blocks
the next, or with the target code or what is wrong with it. -/
inductive Ends (o : Options) (s : Source) : Artifacts → Prop where
  | scanned (hstop : o.runsPast .scan = false) : Ends o s { diagnostics := s.scanned }
  | parsed (hstop : o.runsPast .parse = false ∨ s.parsed.hasFatalFrom .parser = true) :
      Ends o s { diagnostics := s.parsed, program := s.program }
  | checked (hstop : o.runsPast .check = false ∨ (deny o s.diagnostics).hasBlocking = true) :
      Ends o s { diagnostics := deny o s.diagnostics, program := s.program }
  | cleaned (hstop : o.runsPast .cleanup = false ∨ (s.cleaned o).hasBlocking = true) :
      Ends o s { diagnostics := s.cleaned o, program := s.program, scheduled := s.planned.1 }
  | rejected {found : Diagnostics} (hchecked : (deny o s.diagnostics).hasBlocking = false)
      (hemit : Code.emitProgram s.context o.lowering s s.planned.1.program = .error found) :
      Ends o s
        { diagnostics := s.cleaned o ++ found, program := s.program, scheduled := s.planned.1 }
  | emitted {module : Code.Module} (hchecked : (deny o s.diagnostics).hasBlocking = false)
      (hruns : o.runsPast .cleanup = true) (hcleaned : (s.cleaned o).hasBlocking = false)
      (hemit : Code.emitProgram s.context o.lowering s s.planned.1.program = .ok module) :
      Ends o s
        { diagnostics := s.cleaned o, program := s.program, scheduled := s.planned.1, module }

theorem ends_ofChecked (hchecked : (deny o s.diagnostics).hasBlocking = false) :
    Ends o s (ofChecked o s s.program s.context (deny o s.diagnostics)) := by
  unfold ofChecked
  rw [s.scheduleCleanup_eq hchecked]
  dsimp only
  split
  · exact .cleaned ‹_›
  rename_i hgoes
  rw [not_or, Bool.not_eq_false, Bool.not_eq_true] at hgoes
  split
  · exact .emitted hchecked hgoes.1 hgoes.2 ‹_›
  · exact .rejected hchecked ‹_›

theorem ends_ofSource (o : Options) (s : Source) : Ends o s (ofSource o s) := by
  unfold ofSource
  dsimp only
  split
  · exact .scanned ‹_›
  split
  · exact .parsed ‹_›
  unfold ofParsed
  dsimp only
  split
  · exact .checked ‹_›
  · rename_i hgoes
    exact ends_ofChecked (eq_false_of_ne_true fun hblocks => hgoes (.inr hblocks))

/-- The diagnostics that the passes over a source can give. -/
inductive Reported (o : Options) (s : Source) : Diagnostic → Prop where
  | scan {e : ScanError} (h : e ∈ scanErrors s.text) : Reported o s (e.toDiagnostic s)
  | parse {e : ParseError} (h : e ∈ (parseProgram (tokens s.text)).2) :
      Reported o s (e.toDiagnostic s)
  | check {e : TypingError} (h : e ∈ s.program.check.2) : Reported o s (e.toDiagnostic s)
  | cleanup {e : CleanupError} (h : e ∈ s.planned.2) : Reported o s (e.toDiagnostic s)
  | emit {d : Diagnostic} {found : Diagnostics}
      (hclean : ∀ e ∈ s.program.check.2, e.fault.severity ≠ .error)
      (hemit : Code.emitProgram s.context o.lowering s s.planned.1.program = .error found)
      (hd : d ∈ found) : Reported o s d
  | escalated {d : Diagnostic} (h : Reported o s d) :
      Reported o s { d with severity := d.severity.escalate }

theorem Ends.reported {x : Artifacts} (h : Ends o s x) : ∀ d ∈ x.diagnostics, Reported o s d := by
  have hscanned : ∀ d ∈ s.scanned, Reported o s d := forall_mem_map.2 fun _ => .scan
  have hparsed : ∀ d ∈ s.parsed, Reported o s d :=
    forall_mem_append.2 ⟨hscanned, forall_mem_map.2 fun _ => .parse⟩
  have hchecked : ∀ d ∈ deny o s.diagnostics, Reported o s d :=
    forall_deny (fun _ => .escalated)
      (forall_mem_append.2 ⟨hparsed, forall_mem_map.2 fun _ => .check⟩)
  have hcleaned : ∀ d ∈ s.cleaned o, Reported o s d :=
    forall_mem_append.2 ⟨hchecked, forall_mem_map.2 fun _ => .cleanup⟩
  cases h with
  | scanned => exact hscanned
  | parsed => exact hparsed
  | checked => exact hchecked
  | cleaned | emitted => exact hcleaned
  | rejected hclear hemit =>
    refine forall_mem_append.2 ⟨hcleaned, fun _ => .emit ?_ hemit⟩
    exact no_errors_of_hasBlocking o s hclear

end Artifacts

end DeferLang
