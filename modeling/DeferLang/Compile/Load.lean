import DeferLang.Compile.Outcome
import DeferLang.Config.Basic
import DeferLang.Disk.Basic
import DeferLang.Text.Path
import DeferLang.Text.Utf8

/-!
# Compiling files

Configurations and sources come from files, and what a compilation makes may
go to files.
-/

namespace DeferLang

/-- Why a source cannot be loaded. -/
inductive LoadFault where
  | unreadable (path : String) (reason : FileError)
  | notUtf8 (path : String) (offset : Nat)
deriving DecidableEq

namespace LoadFault

def code : LoadFault → Nat
  | .unreadable _ _ => 1001
  | .notUtf8 _ _ => 1002

def message : LoadFault → String
  | .unreadable path _ => "cannot read " ++ quoted path
  | .notUtf8 path _ => quoted path ++ " is not valid UTF-8"

def detail : LoadFault → String
  | .unreadable _ reason => reason.text
  | .notUtf8 _ offset => "first invalid byte at offset " ++ Nat.repr offset

/-- The diagnostic for a fault, at the given places. -/
def toDiagnostic (fault : LoadFault) (anchors : List Anchor) : Diagnostic where
  layer := .loader
  severity := .fatal
  code := fault.code
  message := fault.message
  anchors := anchors
  scope := none
  detail := some fault.detail
  suggestions := []

end LoadFault

/-- The file table with a source, and the source or why there is none.  Bytes that are not
UTF-8 are kept with replacement characters, so that the diagnostic can show the place. -/
def loadSource (path : String) : Except FileError (List UInt8) →
    FileTable × Except Diagnostic Source
  | .error reason => ({}, .error (LoadFault.toDiagnostic (.unreadable path reason) []))
  | .ok bytes =>
    match decodeUtf8? bytes with
    | some text =>
      let (files, s) := FileTable.add {} path text
      (files, .ok s)
    | none =>
      let offset := validLength bytes
      let (files, s) := FileTable.add {} path (decodeLossy bytes)
      let anchor := Anchor.ofSpan s ⟨offset, 1⟩
      (files, .error (LoadFault.toDiagnostic (.notUtf8 path offset) [anchor]))

/-- Compile what was read from a path. -/
def compileRead (o : Options) (path : String) (content : Except FileError (List UInt8)) : Outcome :=
  match loadSource path content with
  | (files, .ok s) => Outcome.ofArtifacts o files (Artifacts.ofSource o s)
  | (files, .error d) => Outcome.ofArtifacts o files { diagnostics := [d] }

/-- Compile the file at a path. -/
def compileFile {m : Type → Type} [Monad m] (disk : Disk m) (o : Options) (path : String) :
    m Outcome := do
  return compileRead o path (← disk.read path)

namespace Config

/-- The configuration in the file at a path, from what was read there. -/
def ofRead (path : String) (content : Except FileError (List UInt8)) : Except ConfigError Config :=
  match content with
  | .error _ => .error ⟨path, .unreadable⟩
  | .ok bytes =>
    match decodeUtf8? bytes with
    | none => .error ⟨path, .unreadable⟩
    | some text =>
      match ofText text with
      | .ok c => .ok c
      | .error fault => .error ⟨path, fault⟩

/-- The configuration in the file at a path. -/
def load {m : Type → Type} [Monad m] (disk : Disk m) (path : String) :
    m (Except ConfigError Config) := do
  return ofRead path (← disk.read path)

/-- The configuration beside a source, or the default one if there is no such file. -/
def discover {m : Type → Type} [Monad m] (disk : Disk m) (source : String) :
    m (Except ConfigError Config) := do
  let path := joinPath (directory source) fileName
  if ← disk.isFile path then load disk path else return .ok {}

end Config

/-- What of a compilation could not be written, and where. -/
inductive WriteError where
  | ir (path : String)
  | ast (path : String)
deriving DecidableEq

namespace WriteError

/-- The word for a fault in reports. -/
def code : WriteError → String
  | .ir _ => "keel::session::emit_ir"
  | .ast _ => "keel::session::emit_ast"

def message : WriteError → String
  | .ir path => "cannot write IR to " ++ quoted path
  | .ast path => "cannot write AST to " ++ quoted path

end WriteError

/-- Write a text to a path, if there are both. -/
def writeText {m : Type → Type} [Monad m] (disk : Disk m) (error : String → WriteError)
    (path text : Option String) : m (Except WriteError Unit) := do
  match path, text with
  | some p, some t =>
    match ← disk.write p (utf8Bytes t.toList) with
    | .ok () => return .ok ()
    | .error _ => return .error (error p)
  | _, _ => return .ok ()

/-- Write what the options ask for, as far as it was made: target code first, then the
program.  The first failure ends it. -/
def Outcome.writeArtifacts {m : Type → Type} [Monad m] (disk : Disk m) (o : Options)
    (x : Outcome) : m (Except WriteError Unit) := do
  match ← writeText disk .ir o.irPath x.irText? with
  | .error e => return .error e
  | .ok () => writeText disk .ast o.astPath x.astText?

end DeferLang
