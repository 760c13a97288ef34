import DeferLang.Text.Bytes
import DeferLang.Text.Span

/-!
# Source files and positions

A `Source` is a text under a path, with the table of its line starts.  Lines
and columns count from one, and columns count bytes.
-/

namespace DeferLang

/-- A place in a file.  `offset` is the byte offset that `line` and `column` describe.  Line
and column are exact numbers, of any size; a `Location` holds them in words. -/
structure Position where
  file : Nat
  line : Nat
  column : Nat
  offset : Nat
deriving DecidableEq

/-- A place in a file, with its line and column in 32 bits each. -/
structure Location where
  file : Nat
  line : UInt32
  column : UInt32
  offset : Nat
deriving DecidableEq

/-- Binary search for `x` between the places `lo` and `hi` of a sorted table: the place of
`x`, or as an error the place at which it could be inserted. -/
def searchBetween (table : List Nat) (x : Nat) : Nat → Nat → Nat → Except Nat Nat
  | 0, lo, _ => .error lo
  | rounds + 1, lo, hi =>
    if lo < hi then
      let mid := lo + (hi - lo) / 2
      let entry := table.getD mid 0
      if entry = x then
        .ok mid
      else if entry < x then
        searchBetween table x rounds (mid + 1) hi
      else
        searchBetween table x rounds lo mid
    else
      .error lo

/-- Binary search in a whole table; the range loses a place in every round. -/
def search (table : List Nat) (x : Nat) : Except Nat Nat :=
  searchBetween table x table.length 0 table.length

/-- The place of the last entry of a sorted table that is not behind `x`. -/
def searchLast (table : List Nat) (x : Nat) : Nat :=
  match search table x with
  | .ok i => i
  | .error 0 => 0
  | .error (i + 1) => i

/-- The offsets just after each newline of a text that starts at offset `o`. -/
def headsAfter : Nat → List Char → List Nat
  | _, [] => []
  | o, c :: cs =>
    if c = '\n' then
      (o + c.utf8Size) :: headsAfter (o + c.utf8Size) cs
    else
      headsAfter (o + c.utf8Size) cs

/-- The offsets at which the lines of a text start. -/
def lineHeads (text : List Char) : List Nat :=
  0 :: headsAfter 0 text

/-- A text under a path.  `heads` holds the starts of its lines, `size` its number of bytes. -/
structure Source where
  id : Nat
  path : String
  text : List Char
  size : Nat
  heads : List Nat
  size_eq : size = byteLength text
  heads_eq : heads = lineHeads text

namespace Source

/-- Register `text` under `path` as file number `id`. -/
def ofText (id : Nat) (path : String) (text : List Char) : Source where
  id := id
  path := path
  text := text
  size := byteLength text
  heads := lineHeads text
  size_eq := rfl
  heads_eq := rfl

/-- The starts of the lines, closed by the end of the text, so that every line has an end. -/
def lineStarts (s : Source) : List Nat :=
  if s.heads.getLast? = some s.size then s.heads else s.heads ++ [s.size]

/-- The number of lines; the empty text has none. -/
def lineCount (s : Source) : Nat :=
  if s.text.isEmpty then 0 else s.lineStarts.length - 1

/-- The place of the line at `offset` in the table of line starts.  The end of a text without a
final newline stands in its last line, although the table holds it as a start. -/
def lineIndex (s : Source) (offset : Nat) : Nat :=
  let found := searchLast s.lineStarts offset
  if 0 < found ∧ found + 1 = s.lineStarts.length ∧ s.text.getLast? ≠ some '\n' then
    found - 1
  else
    found

/-- The line and column of a byte offset.  Offsets past the end stand for the end. -/
def position (s : Source) (offset : Nat) : Position :=
  let o := min offset s.size
  let index := s.lineIndex o
  { file := s.id
    line := index + 1
    column := o - s.lineStarts.getD index 0 + 1
    offset := o }

/-- The position of a byte offset in 32-bit words. -/
def locate (s : Source) (offset : Nat) : Location :=
  let o := min offset s.size
  let index := s.lineIndex o
  { file := s.id
    line := UInt32.ofNat index + 1
    column := UInt32.ofNat (o - s.lineStarts.getD index 0) + 1
    offset := o }

/-- The text between two byte offsets, if both are cuts of the text. -/
def slice (s : Source) (start stop : Nat) : Option (List Char) :=
  sliceBytes s.text start stop

/-- Drop a final `c`, if there is one. -/
def dropFinal (c : Char) (cs : List Char) : List Char :=
  if cs.getLast? = some c then cs.dropLast else cs

/-- The text of a line without its terminator.  Past the first line, a line without any
byte does not exist. -/
def lineText (s : Source) : Nat → Option (List Char)
  | 0 => none
  | i + 1 =>
    match s.lineStarts[i]? with
    | none => none
    | some start =>
      if s.size ≤ start ∧ 0 < i then
        none
      else
        let stop := s.lineStarts.getD (i + 1) s.size
        (s.slice start stop).map fun line => dropFinal '\r' (dropFinal '\n' line)

end Source

/-- The files of one compilation.  A file's number is its place in the list. -/
structure FileTable where
  files : List Source := []

namespace FileTable

/-- Add a text under a path; its number is the number of files before it. -/
def add (t : FileTable) (path : String) (text : List Char) : FileTable × Source :=
  let s := Source.ofText t.files.length path text
  (⟨t.files ++ [s]⟩, s)

/-- The file of a given number. -/
def get? (t : FileTable) (id : Nat) : Option Source :=
  t.files[id]?

end FileTable

end DeferLang
