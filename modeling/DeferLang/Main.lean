import DeferLang.CommandLine.Basic

/-!
# The program

The command line over the files of the system.
-/

namespace DeferLang

/-- The kind of a system error. -/
def fileErrorOf : IO.Error → FileError
  | .noFileOrDirectory _ _ _ => .notFound
  | .inappropriateType _ 20 _ => .notDirectory
  | .inappropriateType _ 21 _ => .isDirectory
  | e => .other (toString e)

/-- The result of an action, or the kind of its error. -/
def attempt {α : Type} (action : IO α) : IO (Except FileError α) := do
  try
    return .ok (← action)
  catch e =>
    return .error (fileErrorOf e)

/-- Access to the files of the system. -/
def Disk.system : Disk IO where
  read path := attempt do
    return (← IO.FS.readBinFile path).toList
  write path bytes := attempt do
    IO.FS.writeBinFile path ⟨bytes.toArray⟩
  isFile path := do
    match ← attempt (IO.FS.readBinFile path) with
    | .ok _ => return true
    | .error _ => return false

/-- How the program is used. -/
def usageText : String :=
  "Usage: keel [OPTIONS] <PATH>\n\n" ++
    "Options:\n" ++
    "      --emit-ir <PATH>           write the target code to this path\n" ++
    "      --emit-ast <PATH>          write the program with its cleanup to this path\n" ++
    "      --stop-after <PASS>        stop after lex, parse, sema or raii\n" ++
    "      --context-lines <N>        source lines shown around each diagnostic\n" ++
    "      --deny-warnings            treat warnings as errors\n" ++
    "      --diagnostic-style <STYLE> plain or fancy\n" ++
    "      --config <PATH>            configuration file\n" ++
    "  -h, --help                     print help\n" ++
    "  -V, --version                  print version\n"

end DeferLang

/-- Run the compiler on the arguments; the result is the exit code. -/
def main (args : List String) : IO UInt32 := do
  match DeferLang.CommandLine.parse args with
  | .error .usage =>
    IO.eprint DeferLang.usageText
    return 2
  | .error .help =>
    IO.print DeferLang.usageText
    return 0
  | .error .version =>
    IO.println "keel 0.1.0"
    return 0
  | .ok (c, path) =>
    let report ← c.run DeferLang.Disk.system path
    IO.eprint report.errors
    return UInt32.ofNat report.exitCode
