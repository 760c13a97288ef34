import DeferLang.Cleanup.Schedule
import DeferLang.Code.Print
import DeferLang.Compile.Options
import DeferLang.Diagnostic.Render
import DeferLang.Program.Format
import DeferLang.Program.Parse
import DeferLang.Token.Scan
import DeferLang.Typing.Check

/-!
# Compilation

A compilation runs the passes over a source, as far as its options say and as
long as nothing blocks the next pass, and keeps what every pass made.
-/

namespace DeferLang

/-- How a compilation ended. -/
inductive Status where
  | success
  /-- There is a blocking diagnostic. -/
  | failed
  /-- The source could not be read. -/
  | unreadable
  /-- The target code did not verify. -/
  | unverified
deriving DecidableEq

namespace Status

/-- The exit code of a process that ends with a status. -/
def exitCode : Status → Nat
  | .success => 0
  | .failed => 1
  | .unreadable => 2
  | .unverified => 3

/-- The status that diagnostics stand for. -/
def ofDiagnostics (ds : Diagnostics) : Status :=
  if ds.any (fun d => d.layer = .loader ∧ d.isBlocking) then .unreadable
  else if ds.any (·.code = Code.verifyCode) then .unverified
  else if ds.hasBlocking then .failed
  else .success

end Status

/-- What the passes over a source made. -/
structure Artifacts where
  diagnostics : Diagnostics := []
  program : Option Program := none
  /-- The program with its cleanup. -/
  scheduled : Option ScheduledProgram := none
  module : Option Code.Module := none

namespace Artifacts

/-- The last passes: cleanup, and target code. -/
def ofChecked (o : Options) (s : Source) (program : Program) (ctx : Context)
    (checked : Diagnostics) : Artifacts :=
  let (scheduled, errors) := program.scheduleCleanup ctx checked
  let ds := checked ++ errors.map (CleanupError.toDiagnostic s)
  match scheduled with
  | none => { diagnostics := ds, program }
  | some result =>
    if o.runsPast .cleanup = false ∨ ds.hasBlocking then
      { diagnostics := ds, program, scheduled }
    else
      match Code.emitProgram ctx o.lowering s result.program with
      | .ok module => { diagnostics := ds, program, scheduled, module }
      | .error found => { diagnostics := ds ++ found, program, scheduled }

/-- Warnings are errors, if the options say so. -/
def deny (o : Options) (ds : Diagnostics) : Diagnostics :=
  if o.denyWarnings then ds.escalateWarnings else ds

/-- The passes behind parsing: names and types first. -/
def ofParsed (o : Options) (s : Source) (program : Program) (parsed : Diagnostics) : Artifacts :=
  let (ctx, errors) := program.check
  let ds := deny o (parsed ++ errors.map (TypingError.toDiagnostic s))
  if o.runsPast .check = false ∨ ds.hasBlocking then { diagnostics := ds, program }
  else ofChecked o s program ctx ds

/-- All passes over a source. -/
def ofSource (o : Options) (s : Source) : Artifacts :=
  let scanned : Diagnostics := (scanErrors s.text).map (ScanError.toDiagnostic s)
  if o.runsPast .scan = false then { diagnostics := scanned }
  else
    let (program, errors) := parseProgram (tokens s.text)
    let ds := scanned ++ errors.map (ParseError.toDiagnostic s)
    if o.runsPast .parse = false ∨ ds.hasFatalFrom .parser then { diagnostics := ds, program }
    else ofParsed o s program ds

end Artifacts

/-- Everything that a compilation produced. -/
structure Outcome where
  files : FileTable
  diagnostics : Diagnostics
  program : Option Program
  scheduled : Option ScheduledProgram
  module : Option Code.Module
  status : Status

namespace Outcome

/-- The outcome with what the passes over a file made. -/
def ofArtifacts (o : Options) (files : FileTable) (a : Artifacts) : Outcome :=
  let ds := Artifacts.deny o a.diagnostics
  { files, diagnostics := ds, program := a.program, scheduled := a.scheduled,
    module := a.module, status := Status.ofDiagnostics ds }

def succeeded (x : Outcome) : Bool :=
  x.status = .success

/-- The text of the target code, if there is any. -/
def irText? (x : Outcome) : Option String :=
  x.module.map Code.Module.text

/-- The program in canonical form, with its cleanup once that is scheduled. -/
def astText? (x : Outcome) : Option String :=
  match x.scheduled, x.program with
  | some s, _ => some s.program.format
  | none, some p => some p.format
  | none, none => none

/-- The rendering of the diagnostics. -/
def render (x : Outcome) (contextLines : Nat) : String :=
  x.diagnostics.render x.files contextLines

end Outcome

/-- Compile a text under a name. -/
def compileText (o : Options) (name : String) (text : List Char) : Outcome :=
  let (files, s) := FileTable.add {} name text
  Outcome.ofArtifacts o files (Artifacts.ofSource o s)

end DeferLang
