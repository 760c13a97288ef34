import DeferLang.Text.Source

/-!
# Diagnostics

A diagnostic is one report of one layer of the compiler.  The list of
diagnostics of a compilation is kept in the order in which they were pushed;
`Diagnostics.sorted` gives the order in which they are shown.
-/

namespace DeferLang

/-- The layer that reports, in the order in which the layers run. -/
inductive Layer where
  | loader
  | lexer
  | parser
  | semantic
  | cleanup
  | emitter
deriving DecidableEq

namespace Layer

/-- The name of a layer in output. -/
def name : Layer → String
  | .loader => "loader"
  | .lexer => "lexer"
  | .parser => "parser"
  | .semantic => "semantic"
  | .cleanup => "raii"
  | .emitter => "emitter"

/-- The place of a layer in the order in which the layers run. -/
def rank : Layer → Nat
  | .loader => 0
  | .lexer => 1
  | .parser => 2
  | .semantic => 3
  | .cleanup => 4
  | .emitter => 5

end Layer

/-- How grave a diagnostic is, mildest first. -/
inductive Severity where
  | info
  | warning
  | error
  | fatal
deriving DecidableEq

namespace Severity

/-- The name of a severity in output. -/
def name : Severity → String
  | .info => "info"
  | .warning => "warning"
  | .error => "error"
  | .fatal => "fatal"

/-- Errors and fatal errors block the passes that depend on the reporting one. -/
def isBlocking : Severity → Bool
  | .info => false
  | .warning => false
  | .error => true
  | .fatal => true

/-- The name under which a severity is handed on to other reporters, which know no fatal errors. -/
def bridgeName : Severity → String
  | .info => "Advice"
  | .warning => "Warning"
  | .error => "Error"
  | .fatal => "Error"

/-- A warning counts as an error; every other severity stays. -/
def escalate : Severity → Severity
  | .warning => .error
  | s => s

end Severity

/-- The text of a diagnostic code: decimal, with zeros in front up to four digits. -/
def codeText (code : Nat) : String :=
  let digits := Nat.toDigits 10 code
  String.ofList (List.replicate (4 - digits.length) '0' ++ digits)

/-- A place in a file that a diagnostic points at. -/
structure Anchor where
  span : Span
  position : Position
  lexeme : String
deriving DecidableEq

namespace Anchor

/-- Point at a span of a file.  The lexeme stops at the end of the text, and is empty when
the span does not cut the text between characters. -/
def ofSpan (source : Source) (span : Span) : Anchor where
  span := span
  position := source.position span.offset
  lexeme :=
    String.ofList ((source.slice span.offset (min span.stop source.size)).getD [])

end Anchor

/-- The block that a diagnostic speaks about. -/
structure ScopeNote where
  block : Nat
  span : Span
  label : String
deriving DecidableEq

/-- One report of one layer. -/
structure Diagnostic where
  layer : Layer
  severity : Severity
  code : Nat
  message : String
  anchors : List Anchor := []
  scope : Option ScopeNote := none
  detail : Option String := none
  suggestions : List String := []
deriving DecidableEq

namespace Diagnostic

/-- The diagnostic in one line, without its place. -/
def summary (d : Diagnostic) : String :=
  "[" ++ codeText d.code ++ "] " ++ d.message

/-- The code with the layer that owns it. -/
def qualifiedCode (d : Diagnostic) : String :=
  "keel::" ++ d.layer.name ++ "::" ++ codeText d.code

/-- All suggestions in one text, if there are any. -/
def help (d : Diagnostic) : Option String :=
  if d.suggestions.isEmpty then none else some ("; ".intercalate d.suggestions)

/-- The spans to mark, with the label of each: the anchors, then the scope. -/
def labels (d : Diagnostic) : Option (List (Option String × Span)) :=
  match d.anchors, d.scope with
  | [], none => none
  | anchors, scope =>
    some (anchors.map (fun a => (none, a.span)) ++
      scope.toList.map (fun s => (some s.label, s.span)))

/-- Whether the diagnostic blocks dependent passes. -/
def isBlocking (d : Diagnostic) : Bool :=
  d.severity.isBlocking

/-- The key of the order in which diagnostics are shown: those without a place first, then
by file, line and column, and last by layer. -/
def sortKey (d : Diagnostic) : List Nat :=
  match d.anchors.head? with
  | none => [0, d.layer.rank]
  | some a => [1, a.position.file, a.position.line, a.position.column, d.layer.rank]

/-- Whether a key is at most another: the first place at which they differ decides, and a key
is at most its extensions. -/
def keyLe : List Nat → List Nat → Bool
  | [], _ => true
  | _ :: _, [] => false
  | x :: xs, y :: ys => decide (x < y) || (decide (x = y) && keyLe xs ys)

end Diagnostic

/-- The diagnostics of a compilation, in the order in which they were pushed. -/
abbrev Diagnostics := List Diagnostic

namespace Diagnostics

def hasBlocking (ds : Diagnostics) : Bool :=
  ds.any Diagnostic.isBlocking

def hasFatalFrom (ds : Diagnostics) (layer : Layer) : Bool :=
  ds.any fun d => d.layer = layer ∧ d.severity = .fatal

def count (ds : Diagnostics) (severity : Severity) : Nat :=
  ds.countP fun d => d.severity = severity

def withCode (ds : Diagnostics) (code : Nat) : List Diagnostic :=
  ds.filter fun d => d.code = code

/-- Treat every warning as an error. -/
def escalateWarnings (ds : Diagnostics) : Diagnostics :=
  ds.map fun d => { d with severity := d.severity.escalate }

/-- The order in which diagnostics are shown; those of equal key keep their order. -/
def sorted (ds : Diagnostics) : List Diagnostic :=
  ds.mergeSort fun a b => Diagnostic.keyLe a.sortKey b.sortKey

end Diagnostics

end DeferLang
