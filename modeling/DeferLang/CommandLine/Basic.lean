import DeferLang.Compile.Load

/-!
# The command line

Arguments are taken in order; the first that is wrong, or that asks for help
or for the version, decides.
-/

namespace DeferLang

/-- How diagnostics are shown.  Both styles have the same text. -/
inductive DiagnosticStyle where
  | plain
  | fancy
deriving DecidableEq

/-- What the arguments ask for. -/
structure CommandLine where
  path : Option String := none
  irPath : Option String := none
  astPath : Option String := none
  stopAfter : Option Pass := none
  contextLines : Option Nat := none
  style : Option DiagnosticStyle := none
  configPath : Option String := none
  denyWarnings : Bool := false
deriving DecidableEq

/-- Why nothing is compiled. -/
inductive Refusal where
  /-- The arguments are wrong. -/
  | usage
  | help
  | version
deriving DecidableEq

/-- The options with a value. -/
inductive ValueOption where
  | emitIr
  | emitAst
  | stopAfter
  | contextLines
  | diagnosticStyle
  | config
deriving DecidableEq

namespace CommandLine

/-- The option with a value that a name stands for. -/
def valueOption? (name : String) : Option ValueOption :=
  if name = "--emit-ir" then some .emitIr
  else if name = "--emit-ast" then some .emitAst
  else if name = "--stop-after" then some .stopAfter
  else if name = "--context-lines" then some .contextLines
  else if name = "--diagnostic-style" then some .diagnosticStyle
  else if name = "--config" then some .config
  else none

/-- Give a field its only value. -/
def once {α : Type} (old : Option α) (new : Option α) : Except Refusal (Option α) :=
  match old, new with
  | none, some a => .ok (some a)
  | _, _ => .error .usage

/-- A path is not empty. -/
def path? (text : String) : Option String :=
  if text = "" then none else some text

/-- A number of lines: digits, with a plus sign or without, below two to the power of 64. -/
def lineCount? (text : String) : Option Nat :=
  let digits := match text.toList with
    | '+' :: rest => rest
    | all => all
  if digits.isEmpty ∨ !digits.all Char.isDigit then none
  else
    let n := digits.foldl (fun n c => n * 10 + (c.toNat - 48)) 0
    if n < UInt64.size then some n else none

def style? (text : String) : Option DiagnosticStyle :=
  if text = "plain" then some .plain
  else if text = "fancy" then some .fancy
  else none

/-- Take over the value of an option. -/
def set (c : CommandLine) (option : ValueOption) (value : String) :
    Except Refusal CommandLine := do
  match option with
  | .emitIr => return { c with irPath := ← once c.irPath (path? value) }
  | .emitAst => return { c with astPath := ← once c.astPath (path? value) }
  | .config => return { c with configPath := ← once c.configPath (path? value) }
  | .stopAfter => return { c with stopAfter := ← once c.stopAfter (Pass.ofName? value) }
  | .contextLines => return { c with contextLines := ← once c.contextLines (lineCount? value) }
  | .diagnosticStyle => return { c with style := ← once c.style (style? value) }

/-- Take over the path of the source. -/
def setPath (c : CommandLine) (value : String) : Except Refusal CommandLine := do
  return { c with path := ← once c.path (path? value) }

/-- Whether an argument looks like an option. -/
def isOption (arg : String) : Bool :=
  match arg.toList with
  | '-' :: _ :: _ => true
  | _ => false

/-- An option's name, and the value that follows it behind an equals sign. -/
def splitOption (arg : String) : String × Option String :=
  let name := arg.toList.takeWhile (· ≠ '=')
  match arg.toList.drop name.length with
  | [] => (arg, none)
  | _ :: value => (String.ofList name, some (String.ofList value))

/-- An argument of two dashes and a name, with the value behind its equals sign, or else one
without a value. -/
def setLong (c : CommandLine) (name : String) : Option String → Except Refusal CommandLine
  | none =>
    if name = "--help" then .error .help
    else if name = "--version" then .error .version
    else if name = "--deny-warnings" ∧ c.denyWarnings = false then
      .ok { c with denyWarnings := true }
    else .error .usage
  | some value =>
    match valueOption? name with
    | some option => c.set option value
    | none => .error .usage

/-- An argument of one dash and letters. -/
def refuseShort (arg : String) : Refusal :=
  match arg.toList with
  | '-' :: 'h' :: _ => .help
  | '-' :: 'V' :: _ => .version
  | _ => .usage

/-- Take over the arguments, of which the first may be the value of an option in front of it.
Behind two dashes there are only paths. -/
def take (c : CommandLine) : Option ValueOption → List String → Except Refusal CommandLine
  | none, [] => .ok c
  | some _, [] => .error .usage
  | some option, value :: args =>
    if isOption value then .error .usage
    else do take (← c.set option value) none args
  | none, arg :: args =>
    if arg = "--" then args.foldlM setPath c
    else if isOption arg = false then do
      take (← c.setPath arg) none args
    else if arg.toList.take 2 ≠ ['-', '-'] then .error (refuseShort arg)
    else
      match splitOption arg with
      | (name, some value) => do take (← c.setLong name (some value)) none args
      | (name, none) =>
        match valueOption? name with
        | some option => take c (some option) args
        | none => do take (← c.setLong name none) none args

/-- What the arguments ask for, with the path that they must have. -/
def parse (args : List String) : Except Refusal (CommandLine × String) := do
  let c ← take {} none args
  match c.path with
  | some path => return (c, path)
  | none => throw .usage

/-- The options that arguments and a configuration stand for.  Arguments win. -/
def options (c : CommandLine) (config : Config) : Options :=
  let o := Options.ofConfig config
  { o with
    stopAfter := c.stopAfter
    irPath := c.irPath
    astPath := c.astPath
    contextLines := c.contextLines.getD o.contextLines
    denyWarnings := o.denyWarnings || c.denyWarnings }

/-- What a run leaves: its exit code, and its error output. -/
structure Report where
  exitCode : Nat
  errors : String
deriving DecidableEq

/-- The exit code of a run that could not read or write its files. -/
def ioExit : Nat :=
  Status.unreadable.exitCode

/-- Compile as the arguments say. -/
def run {m : Type → Type} [Monad m] (disk : Disk m) (c : CommandLine) (path : String) :
    m Report := do
  let found ← match c.configPath with
    | some p => Config.load disk p
    | none => Config.discover disk path
  match found with
  | .error e => return ⟨ioExit, e.fault.code ++ "\n"⟩
  | .ok config =>
    let o := c.options config
    let x ← compileFile disk o path
    let shown := x.render o.contextLines
    match ← x.writeArtifacts disk o with
    | .error e => return ⟨ioExit, shown ++ e.code ++ "\n"⟩
    | .ok () => return ⟨x.status.exitCode, shown⟩

end CommandLine

end DeferLang
