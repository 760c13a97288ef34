import DeferLang.Toml.Basic

/-!
# Reading TOML

The text of a document is read line by line: blank lines and comments, headers,
and keys with their values.  The only failure is that a text is no document.
-/

namespace DeferLang

namespace Toml

/-- A reader takes characters from the front of a text, or fails. -/
abbrev Reader (α : Type) := StateT (List Char) Option α

namespace Reader

def next : Reader Char := fun
  | [] => none
  | c :: cs => some (c, cs)

def peek? : Reader (Option Char) := do
  return (← get).head?

def expect (c : Char) : Reader Unit := do
  guard ((← next) = c)

def takeWhile (p : Char → Bool) : Reader (List Char) :=
  fun cs => some (cs.takeWhile p, cs.dropWhile p)

def dropWhile (p : Char → Bool) : Reader Unit :=
  modify (·.dropWhile p)

/-- Take a fixed text, if it comes next. -/
def accept (text : String) : Reader Bool := fun cs =>
  if text.toList.isPrefixOf cs then some (true, cs.drop text.length) else some (false, cs)

/-- The number of characters that are left. -/
def size : Reader Nat := do
  return (← get).length

/-- Blanks inside a line. -/
def isSpace (c : Char) : Bool :=
  c = ' ' ∨ c = '\t'

/-- The characters of texts and comments: no control characters but the tab. -/
def isPlain (c : Char) : Bool :=
  c = '\t' ∨ 32 ≤ c.toNat ∧ c.toNat ≠ 127

def spaces : Reader Unit :=
  dropWhile isSpace

/-- Take a line end, if it comes next. -/
def acceptNewline : Reader Bool := do
  if ← accept "\n" then return true else accept "\r\n"

/-- Take a comment, if one comes next. -/
def comment : Reader Unit := do
  if ← accept "#" then dropWhile isPlain

/-- What may follow on the line of a header or value: a comment, up to the end of the line or
of the text. -/
def restOfLine : Reader Unit := do
  spaces
  comment
  if (← peek?).isSome then
    guard (← acceptNewline)

/-- Blanks, comments and line ends between the items of an array. -/
def gap : Nat → Reader Unit
  | 0 => return
  | fuel + 1 => do
      spaces
      comment
      if ← acceptNewline then gap fuel

/-! ### Texts -/

/-- The value of a hexadecimal digit. -/
def hexValue? (c : Char) : Option Nat :=
  if '0' ≤ c ∧ c ≤ '9' then some (c.toNat - 48)
  else if 'a' ≤ c ∧ c ≤ 'f' then some (c.toNat - 87)
  else if 'A' ≤ c ∧ c ≤ 'F' then some (c.toNat - 55)
  else none

/-- The number that a count of hexadecimal digits spells. -/
def hexNumber : Nat → Nat → Reader Nat
  | 0, n => return n
  | count + 1, n => do
      match hexValue? (← next) with
      | some d => hexNumber count (n * 16 + d)
      | none => failure

/-- A character given by its number. -/
def scalar (digits : Nat) : Reader Char := do
  let n ← hexNumber digits 0
  guard n.isValidChar
  return Char.ofNat n

/-- What stands behind a backslash. -/
def escape : Reader Char := do
  match ← next with
  | 'b' => return '\x08'
  | 't' => return '\t'
  | 'n' => return '\n'
  | 'f' => return '\x0c'
  | 'r' => return '\r'
  | '"' => return '"'
  | '\\' => return '\\'
  | 'u' => scalar 4
  | 'U' => scalar 8
  | _ => failure

/-- The rest of a text that ends with a quote.  Only double quotes allow escapes. -/
def quotedRest (quote : Char) : Nat → Reader (List Char)
  | 0 => failure
  | fuel + 1 => do
      let c ← next
      if c = quote then return []
      else if c = '\\' ∧ quote = '"' then
        let e ← escape
        return e :: (← quotedRest quote fuel)
      else
        guard (isPlain c)
        return c :: (← quotedRest quote fuel)

/-- Up to two quotes. -/
def quotesBefore (quote : Char) : Reader (List Char) := fun cs =>
  let found := (cs.takeWhile (· = quote)).take 2
  some (found, cs.drop found.length)

/-- Drop all blanks and line ends. -/
def dropLines : Nat → Reader Unit
  | 0 => return
  | fuel + 1 => do
      spaces
      if ← acceptNewline then dropLines fuel

/-- Whether the rest of the line is blank. -/
def atBlankLine : Reader Bool := do
  let rest := (← get).dropWhile isSpace
  return "\n".toList.isPrefixOf rest || "\r\n".toList.isPrefixOf rest

/-- The rest of a text over several lines, which ends with three quotes.  A backslash at the
end of a line joins it with the next text. -/
def linesRest (quote : Char) : Nat → Reader (List Char)
  | 0 => failure
  | fuel + 1 => do
      if ← accept (String.ofList [quote, quote, quote]) then quotesBefore quote
      else if ← acceptNewline then return '\n' :: (← linesRest quote fuel)
      else
        let c ← next
        if c = '\\' ∧ quote = '"' then
          if ← atBlankLine then
            dropLines fuel
            linesRest quote fuel
          else
            let e ← escape
            return e :: (← linesRest quote fuel)
        else
          guard (isPlain c)
          return c :: (← linesRest quote fuel)

/-- A text between quotes on one line. -/
def quotedText (quote : Char) : Reader String := do
  expect quote
  return String.ofList (← quotedRest quote (← size))

/-- A text between quotes, or between three quotes each. -/
def text (quote : Char) : Reader String := do
  if ← accept (String.ofList [quote, quote, quote]) then
    let _ ← acceptNewline
    return String.ofList (← linesRest quote (← size))
  else
    quotedText quote

/-! ### Keys -/

/-- The characters of a key without quotes. -/
def isBare (c : Char) : Bool :=
  c.isAlphanum ∨ c = '-' ∨ c = '_'

def keyPart : Reader String := do
  spaces
  let part ← match ← peek? with
    | some '"' => quotedText '"'
    | some '\x27' => quotedText '\x27'
    | _ => do
        let word ← takeWhile isBare
        guard (!word.isEmpty)
        pure (String.ofList word)
  spaces
  return part

/-- A key: the parts in front of its dots, and the last part. -/
def key : Nat → Reader (List String × String)
  | 0 => failure
  | fuel + 1 => do
      let first ← keyPart
      if ← accept "." then
        let (path, name) ← key fuel
        return (first :: path, name)
      else
        return ([], first)

/-- The largest number of parts of a key, and of arrays and inline tables in each other. -/
def maxDepth : Nat :=
  79

/-! ### Numbers, dates and truth values -/

/-- The characters of numbers, dates and words. -/
def isWord (c : Char) : Bool :=
  c.isAlphanum ∨ c = '+' ∨ c = '-' ∨ c = '_' ∨ c = '.' ∨ c = ':'

/-- The value of digits, between which single underscores may stand. -/
def digits? (base : Nat) (value? : Char → Option Nat) : List Char → Option Nat
  | [] => none
  | c :: cs => do go (← value? c) cs
where
  go (n : Nat) : List Char → Option Nat
    | [] => some n
    | '_' :: c :: cs => do go (n * base + (← value? c)) cs
    | c :: cs => do go (n * base + (← value? c)) cs

/-- The value of a digit below a base. -/
def digitBelow? (base : Nat) (c : Char) : Option Nat := do
  let d ← hexValue? c
  guard (d < base)
  return d

def decimal? (word : List Char) : Option Nat :=
  digits? 10 (digitBelow? 10) word

/-- A decimal number without needless zeros in front. -/
def whole? : List Char → Option Nat
  | ['0'] => some 0
  | '0' :: _ => none
  | word => decimal? word

/-- A sign, and the rest. -/
def signed : List Char → Bool × List Char
  | '-' :: word => (true, word)
  | '+' :: word => (false, word)
  | word => (false, word)

/-- Integers have 64 bits. -/
def inRange? (n : Int) : Option Int :=
  if -9223372036854775808 ≤ n ∧ n ≤ 9223372036854775807 then some n else none

def int? (word : List Char) : Option Int :=
  match word with
  | '0' :: 'x' :: digits => do inRange? (← digits? 16 (digitBelow? 16) digits)
  | '0' :: 'o' :: digits => do inRange? (← digits? 8 (digitBelow? 8) digits)
  | '0' :: 'b' :: digits => do inRange? (← digits? 2 (digitBelow? 2) digits)
  | _ => do
      let (isNegative, digits) := signed word
      let n ← whole? digits
      inRange? (if isNegative then -n else n)

/-- Cut a word in front of the first character with a property. -/
def cut (p : Char → Bool) (word : List Char) : List Char × List Char :=
  (word.takeWhile (!p ·), word.dropWhile (!p ·))

def isExponent (c : Char) : Bool :=
  c = 'e' ∨ c = 'E'

/-- The power of ten that a word stands for: the empty word, or an exponent. -/
def scale? : List Char → Option Int
  | [] => some 0
  | _ :: power =>
    let (isNegative, digits) := signed power
    (decimal? digits).map fun n => if isNegative then -(n : Int) else n

/-- The least number that rounds to no finite float of 64 bits. -/
def floatBound : Nat :=
  Nat.pow 2 1024 - Nat.pow 2 970

/-- Whether a number times a power of ten is too large for a float.  Far from the bound the
number of places decides. -/
def overflows (n : Nat) (power : Int) : Bool :=
  let places := (Nat.toDigits 10 n).length + power
  if n = 0 ∨ places ≤ 308 then false
  else if 310 ≤ places then true
  else floatBound * Nat.pow 10 (-power).toNat ≤ n * Nat.pow 10 power.toNat

/-- Whether a word is a number with a fraction or an exponent.  Too large a positive number is
none. -/
def isFloat (word : List Char) : Bool :=
  let (isNegative, body) := signed word
  if body = ['i', 'n', 'f'] ∨ body = ['n', 'a', 'n'] then true
  else
    let (front, rest) := cut (fun c => c = '.' ∨ isExponent c) body
    match rest with
    | [] => false
    | '.' :: more =>
      let (fraction, scale) := cut isExponent more
      match whole? front, decimal? fraction, scale? scale with
      | some n, some f, some power =>
        let places := (fraction.filter Char.isDigit).length
        isNegative || !overflows (n * Nat.pow 10 places + f) (power - places)
      | _, _, _ => false
    | scale =>
      match whole? front, scale? scale with
      | some n, some power => isNegative || !overflows n power
      | _, _ => false

/-- The value of digits with nothing between them, as dates and times have them. -/
def digitRun? (word : List Char) : Option Nat :=
  if word.all Char.isDigit then decimal? word else none

/-- The number of days of a month. -/
def daysIn (year month : Nat) : Nat :=
  if month = 2 then
    if year % 4 = 0 ∧ (year % 100 ≠ 0 ∨ year % 400 = 0) then 29 else 28
  else if month = 4 ∨ month = 6 ∨ month = 9 ∨ month = 11 then 30
  else 31

def isDate : List Char → Bool
  | [a, b, c, d, '-', e, f, '-', g, h] =>
    match digitRun? [a, b, c, d], digitRun? [e, f], digitRun? [g, h] with
    | some year, some month, some day =>
      1 ≤ month ∧ month ≤ 12 ∧ 1 ≤ day ∧ day ≤ daysIn year month
    | _, _, _ => false
  | _ => false

/-- Whether a word is a time of day, with a fraction of the second or without. -/
def isTime : List Char → Bool
  | a :: b :: ':' :: c :: d :: ':' :: e :: f :: rest =>
    match digitRun? [a, b], digitRun? [c, d], digitRun? [e, f] with
    | some hour, some minute, some second =>
      decide (hour ≤ 23 ∧ minute ≤ 59 ∧ second ≤ 60) &&
        match rest with
        | [] => true
        | '.' :: fraction => !fraction.isEmpty && fraction.all Char.isDigit
        | _ => false
    | _, _, _ => false
  | _ => false

/-- Whether a word is the distance of a time zone. -/
def isOffset : List Char → Bool
  | [] => true
  | ['Z'] => true
  | ['z'] => true
  | [sign, a, b, ':', c, d] =>
    decide (sign = '+' ∨ sign = '-') &&
      match digitRun? [a, b], digitRun? [c, d] with
      | some hour, some minute => hour ≤ 23 ∧ minute ≤ 59
      | _, _ => false
  | _ => false

/-- Whether a word is a time of day, with a time zone or without. -/
def isZonedTime (word : List Char) : Bool :=
  let (time, zone) := cut (fun c => c = 'Z' ∨ c = 'z' ∨ c = '+' ∨ c = '-') word
  isTime time && isOffset zone

/-- Whether a word is a date, a time, or both with a mark between them. -/
def isDateTime (word : List Char) : Bool :=
  if isTime word then true
  else
    isDate (word.take 10) &&
      match word.drop 10 with
      | [] => true
      | mark :: time => (mark = 'T' ∨ mark = 't' ∨ mark = ' ') && isZonedTime time

/-- The value that a word stands for. -/
def word? (word : List Char) : Option Value :=
  if word = ['t', 'r', 'u', 'e'] then some (.bool true)
  else if word = ['f', 'a', 'l', 's', 'e'] then some (.bool false)
  else if isDateTime word then some .date
  else if isFloat word then some .float
  else (int? word).map .int

/-- A word.  Between a date and a time a blank may stand. -/
def word : Reader Value := do
  let first ← takeWhile isWord
  let second ← match ← get with
    | ' ' :: c :: _ =>
      if isDate first ∧ c.isDigit then
        let _ ← next
        let time ← takeWhile isWord
        pure (' ' :: time)
      else pure []
    | _ => pure []
  match word? (first ++ second) with
  | some value => return value
  | none => failure

/-! ### Values -/

/-- The items of an array, up to its closing bracket. -/
def items (value : Reader Value) : Nat → Reader (List Value)
  | 0 => failure
  | fuel + 1 => do
      gap fuel
      if ← accept "]" then return []
      else
        let first ← value
        gap fuel
        if ← accept "," then return first :: (← items value fuel)
        else
          expect ']'
          return [first]

/-- A key, its value, and what separates them. -/
def pair (value : Reader Value) : Reader (List String × String × Value) := do
  let (path, name) ← key maxDepth
  expect '='
  spaces
  return (path, name, ← value)

/-- The pairs of an inline table, up to its closing brace. -/
def pairs (value : Reader Value) : Nat → Reader (List (List String × String × Value))
  | 0 => failure
  | fuel + 1 => do
      let first ← pair value
      spaces
      if ← accept "," then return first :: (← pairs value fuel)
      else
        expect '\x7d'
        return [first]

/-- A value that holds no others. -/
def simple : Reader Value := do
  match ← peek? with
  | some '"' => return .str (← text '"')
  | some '\x27' => return .str (← text '\x27')
  | _ => word

/-- A value, with a number of levels of arrays and inline tables that are left. -/
def value : Nat → Reader Value
  | 0 => simple
  | depth + 1 => do
      if ← accept "[" then
        return .array (← items (value depth) (← size))
      else if ← accept "\x7b" then
        spaces
        if ← accept "\x7d" then return .table .inline []
        else
          match Entries.ofPairs? (← pairs (value depth) (← size)) with
          | some entries => return .table .inline entries
          | none => failure
      else
        simple

/-! ### Lines -/

/-- A header, from its opening bracket. -/
def header (d : Draft) : Reader Draft := do
  if ← accept "[[" then
    let (path, name) ← key maxDepth
    guard (← accept "]]")
    restOfLine
    liftOption (d.startRepeated? path name)
  else
    expect '['
    let (path, name) ← key maxDepth
    expect ']'
    restOfLine
    liftOption (d.startTable? path name)
where
  liftOption {α : Type} : Option α → Reader α
    | some a => return a
    | none => failure

/-- A key and its value on a line. -/
def keyLine (d : Draft) : Reader Draft := do
  let (path, name, v) ← pair (value maxDepth)
  restOfLine
  match d.addKey? path name v with
  | some d => return d
  | none => failure

/-- The lines of a document. -/
def lines : Nat → Draft → Reader Draft
  | 0, d => return d
  | fuel + 1, d => do
      spaces
      match ← peek? with
      | none => return d
      | some '[' => do lines fuel (← header d)
      | some c =>
        if c = '#' ∨ c = '\n' ∨ c = '\r' then
          restOfLine
          lines fuel d
        else
          lines fuel (← keyLine d)

end Reader

/-- The table that a text stands for, if it is a document.  A byte order mark in front says
nothing. -/
def parse? (text : List Char) : Option Entries := do
  let body := match text with
    | '\uFEFF' :: rest => rest
    | _ => text
  let (d, _) ← (Reader.lines (body.length + 1) {}).run body
  d.finish?

end Toml

end DeferLang
