import DeferLang.Compile.Options
import DeferLang.Text.WhiteSpace
import DeferLang.Toml.Read

/-!
# Configuration

A configuration file is a document with two sections, each with two keys.  All
of them may be left out.  The first fault in the order of the document counts;
what the values say is checked last.
-/

namespace DeferLang

/-- The contents of a configuration file. -/
structure Config where
  contextLines : Nat := 2
  denyWarnings : Bool := false
  printSymbol : String := printName
  targetTriple : Option String := none
deriving DecidableEq

/-- What is wrong with a configuration. -/
inductive ConfigFault where
  /-- The file cannot be read as text. -/
  | unreadable
  /-- The text is no document. -/
  | malformed
  | unknownField (name first second : String)
  /-- The value of a key has the wrong type, or is out of range. -/
  | wrongType (name : String)
  | badSymbol (symbol : String)
  | emptyTriple
deriving DecidableEq

namespace ConfigFault

/-- The word for a fault in reports. -/
def code : ConfigFault → String
  | .unreadable => "keel::config::io"
  | .malformed => "keel::config::parse"
  | .unknownField _ _ _ => "keel::config::parse"
  | .wrongType _ => "keel::config::parse"
  | .badSymbol _ => "keel::config::value"
  | .emptyTriple => "keel::config::value"

/-- What a fault says about the configuration. -/
def reason : ConfigFault → String
  | .unreadable => "not a readable text"
  | .malformed => "not a valid document"
  | .unknownField name first second =>
    "unknown field " ++ quoted name ++ ", expected " ++ quoted first ++ " or " ++ quoted second
  | .wrongType name => "the value of " ++ quoted name ++ " has the wrong type"
  | .badSymbol symbol => quoted symbol ++ " is not a usable symbol name"
  | .emptyTriple => "target-triple is empty"

def help : ConfigFault → Option String
  | .badSymbol _ => some "print-symbol must start with a letter or `_`"
  | .emptyTriple => some "remove the key to target the host"
  | .unreadable => none
  | .malformed => none
  | .unknownField _ _ _ => none
  | .wrongType _ => none

end ConfigFault

/-- A fault in the configuration at a path. -/
structure ConfigError where
  path : String
  fault : ConfigFault
deriving DecidableEq

def ConfigError.message (e : ConfigError) : String :=
  match e.fault with
  | .unreadable => "cannot read " ++ quoted e.path
  | fault => "invalid configuration in " ++ quoted e.path ++ ": " ++ fault.reason

namespace Config

/-- The name of a configuration file beside a source. -/
def fileName : String :=
  "keel.toml"

/-- The key under which a date that stands for a section is found. -/
def dateKey : String :=
  "$__toml_private_datetime"

/-- The entries of a section.  A list holds the values of the keys in their order; further
items are left out.  A date is a section with a single key, which no section knows. -/
def sectionEntries? (keys : List String) : Toml.Value → Option Toml.Entries
  | .table _ entries => some entries
  | .array items => some (keys.zip items)
  | .tables items => some (keys.zip (items.map (.table .header ·)))
  | .date => some [(dateKey, .date)]
  | _ => none

/-- Take over a key of the first section. -/
def setDiagnostic (c : Config) (key : String) (value : Toml.Value) : Except ConfigFault Config :=
  if key = "context-lines" then
    match value with
    | .int n => if n < 0 then .error (.wrongType key) else .ok { c with contextLines := n.toNat }
    | _ => .error (.wrongType key)
  else if key = "deny-warnings" then
    match value with
    | .bool b => .ok { c with denyWarnings := b }
    | _ => .error (.wrongType key)
  else
    .error (.unknownField key "context-lines" "deny-warnings")

/-- Take over a key of the second section. -/
def setEmit (c : Config) (key : String) (value : Toml.Value) : Except ConfigFault Config :=
  if key = "print-symbol" then
    match value with
    | .str text => .ok { c with printSymbol := text }
    | _ => .error (.wrongType key)
  else if key = "target-triple" then
    match value with
    | .str text => .ok { c with targetTriple := some text }
    | _ => .error (.wrongType key)
  else
    .error (.unknownField key "print-symbol" "target-triple")

/-- Take over a section key by key. -/
def setAll (set : Config → String → Toml.Value → Except ConfigFault Config) (keys : List String)
    (name : String) (c : Config) (value : Toml.Value) : Except ConfigFault Config :=
  match sectionEntries? keys value with
  | none => .error (.wrongType name)
  | some entries => entries.foldlM (fun c (key, value) => set c key value) c

/-- Take over a section. -/
def setSection (c : Config) (name : String) (value : Toml.Value) : Except ConfigFault Config :=
  if name = "diagnostics" then
    setAll setDiagnostic ["context-lines", "deny-warnings"] name c value
  else if name = "emit" then
    setAll setEmit ["print-symbol", "target-triple"] name c value
  else
    .error (.unknownField name "diagnostics" "emit")

/-- The characters of a symbol name. -/
def isSymbolChar (c : Char) : Bool :=
  c.isAlphanum ∨ c = '_' ∨ c = '.' ∨ c = '$'

/-- Whether a text can name a routine. -/
def isSymbol (text : String) : Bool :=
  match text.toList with
  | [] => false
  | c :: cs => (c.isAlpha ∨ c = '_') ∧ cs.all isSymbolChar

/-- Check what the values say. -/
def validate (c : Config) : Except ConfigFault Config :=
  if isSymbol c.printSymbol = false then .error (.badSymbol c.printSymbol)
  else if c.targetTriple.any (·.toList.all isWhiteSpace) then .error .emptyTriple
  else .ok c

/-- The configuration that a text stands for. -/
def ofText (text : List Char) : Except ConfigFault Config :=
  match Toml.parse? text with
  | none => .error .malformed
  | some entries => do
      let c ← entries.foldlM (fun c (name, value) => setSection c name value) {}
      validate c

end Config

/-- The options that a configuration stands for. -/
def Options.ofConfig (c : Config) : Options where
  contextLines := c.contextLines
  denyWarnings := c.denyWarnings
  printSymbol := c.printSymbol
  targetTriple := c.targetTriple

end DeferLang
