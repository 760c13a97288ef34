import DeferLang.Diagnostic.Basic

/-!
# Plain rendering of diagnostics

Every diagnostic is a header line, then, when its file is known, the lines
around its place with carets under the marked text, then its notes.
-/

namespace DeferLang

/-- `text` with blanks in front up to `width` characters. -/
def padLeft (width : Nat) (text : String) : String :=
  String.ofList (List.replicate (width - text.length) ' ') ++ text

namespace Diagnostic

/-- The scope, the detail and the suggestions, one line each. -/
def notes (d : Diagnostic) : String :=
  let scope := d.scope.toList.map fun s => "  = scope: " ++ s.label ++ "\n"
  let detail := d.detail.toList.map fun n => "  = note: " ++ n ++ "\n"
  let suggestions := d.suggestions.map fun s => "  = help: " ++ s ++ "\n"
  String.join (scope ++ detail ++ suggestions)

/-- The number of carets under a lexeme that starts at `column` of a line: they stay on the
line, and there is always one. -/
def caretCount (lexeme : String) (line : List Char) (column : Nat) : Nat :=
  max 1 (min lexeme.utf8ByteSize (byteLength line - (column - 1)))

/-- The line of carets under the place of an anchor. -/
def caretLine (a : Anchor) (line : List Char) : String :=
  "     | " ++ String.ofList (List.replicate (a.position.column - 1) ' ') ++
    String.ofList (List.replicate (caretCount a.lexeme line a.position.column) '^') ++ "\n"

/-- A numbered source line. -/
def numberedLine (number : Nat) (line : List Char) : String :=
  padLeft 4 (Nat.repr number) ++ " | " ++ String.ofList line ++ "\n"

/-- At most `count` lines of a file from line `number` on, up to the first that does not
exist, with the carets of the anchor under its line. -/
def excerptFrom (source : Source) (a : Anchor) : Nat → Nat → String
  | 0, _ => ""
  | count + 1, number =>
    match source.lineText number with
    | none => ""
    | some line =>
      let carets := if number = a.position.line then caretLine a line else ""
      numberedLine number line ++ carets ++ excerptFrom source a count (number + 1)

/-- The lines around an anchor.  The number of lines on either side is taken modulo 2 ^ 32.  The
number of the last line is an exact sum; in 32 bits it would stay at the greatest word. -/
def excerpt (source : Source) (a : Anchor) (contextLines : Nat) : String :=
  let around := contextLines % UInt32.size
  let first := max 1 (a.position.line - around)
  let last := a.position.line + around
  excerptFrom source a (last + 1 - first) first

/-- A diagnostic as plain text. -/
def render (files : FileTable) (contextLines : Nat) (d : Diagnostic) : String :=
  let report := d.severity.name ++ ": " ++ d.summary ++ "\n"
  match d.anchors.head? with
  | none => report ++ d.notes
  | some a =>
    let place := Nat.repr a.position.line ++ ":" ++ Nat.repr a.position.column ++ ": "
    match files.get? a.position.file with
    | none => "<unknown>:" ++ place ++ report ++ d.notes
    | some source =>
      source.path ++ ":" ++ place ++ report ++ excerpt source a contextLines ++ d.notes

end Diagnostic

/-- All diagnostics as plain text, in the order in which they are shown. -/
def Diagnostics.render (files : FileTable) (contextLines : Nat) (ds : Diagnostics) : String :=
  String.join (ds.sorted.map (Diagnostic.render files contextLines))

end DeferLang
