import DeferLang.Diagnostic.Basic
import DeferLang.Text.Escape
import DeferLang.Token.Basic

/-!
# Scanning a text into tokens

A text is cut into pieces: blanks, comments, tokens and faults.  Nothing is
lost between the pieces, and every piece is as long as its class allows.  A
string that does not close on its line gives up its opening quote alone, and
scanning goes on behind it.
-/

namespace DeferLang

/-- Whether a character separates tokens. -/
def isBlank (c : Char) : Bool :=
  c = ' ' || c = '\t' || c = '\r' || c = '\n' || c = '\x0c'

/-- Whether a character is a decimal digit. -/
def isDigit (c : Char) : Bool :=
  '0' ≤ c && c ≤ '9'

/-- Whether a character can start an identifier. -/
def isWordStart (c : Char) : Bool :=
  ('a' ≤ c && c ≤ 'z') || ('A' ≤ c && c ≤ 'Z') || c = '_'

/-- Whether a character can continue an identifier. -/
def isWordPart (c : Char) : Bool :=
  isWordStart c || isDigit c

/-- The number that decimal digits denote. -/
def digitsValue (digits : List Char) : Nat :=
  digits.foldl (fun n c => 10 * n + (c.toNat - '0'.toNat)) 0

/-- What stands between an opening quote and the quote that closes it.  A backslash takes
the next character with it, and the literal has to close on its line. -/
def stringBody : List Char → Option (List Char)
  | [] => none
  | c :: cs =>
    if c = '"' then some []
    else if c = '\n' then none
    else if c = '\\' then
      match cs with
      | [] => none
      | d :: ds => if d = '\n' then none else (stringBody ds).map (c :: d :: ·)
    else (stringBody cs).map (c :: ·)

/-- The value of a string literal: an escaped quote stands for the quote, and any other
backslash for itself. -/
def unescapeQuotes : List Char → List Char
  | [] => []
  | c :: cs =>
    match cs with
    | [] => [c]
    | d :: ds =>
      if c = '\\' ∧ d = '"' then d :: unescapeQuotes ds else c :: unescapeQuotes (d :: ds)

/-- What a piece of text is. -/
inductive PieceClass where
  | blank
  | comment
  | token (kind : TokenKind)
  | oversized
  | unterminated
  | loneBang
  | unexpected
deriving DecidableEq

/-- A piece of text with its class. -/
structure Piece where
  cls : PieceClass
  text : List Char
deriving DecidableEq

/-- The kind of a word: a keyword if it is spelled like one. -/
def wordKind (word : List Char) : TokenKind :=
  let name := String.ofList word
  match Keyword.ofText? name with
  | some k => .keyword k
  | none => .ident name

namespace Piece

/-- A run of digits.  The value of a literal is below 2 ^ 64. -/
def number (digits : List Char) : Piece :=
  let value := digitsValue digits
  if value < UInt64.size then ⟨.token (.int value), digits⟩ else ⟨.oversized, digits⟩

/-- A piece that starts with a quote: a whole string literal, or the quote alone. -/
def string (rest : List Char) : Piece :=
  match stringBody rest with
  | some body => ⟨.token (.str (String.ofList (unescapeQuotes body))), '"' :: body ++ ['"']⟩
  | none => ⟨.unterminated, ['"']⟩

/-- A piece that starts with neither a blank, a word, a digit nor a quote. -/
def symbol (c : Char) (rest : List Char) : Piece :=
  if c = '/' ∧ rest.head? = some '/' then
    ⟨.comment, c :: rest.takeWhile (· ≠ '\n')⟩
  else
    match Mark.at? (c :: rest) with
    | some m => ⟨.token (.mark m), m.chars⟩
    | none => if c = '!' then ⟨.loneBang, [c]⟩ else ⟨.unexpected, [c]⟩

/-- The first piece of a text that starts with `c`. -/
def first (c : Char) (rest : List Char) : Piece :=
  if isBlank c then ⟨.blank, c :: rest.takeWhile isBlank⟩
  else if isWordStart c then
    let word := c :: rest.takeWhile isWordPart
    ⟨.token (wordKind word), word⟩
  else if isDigit c then number (c :: rest.takeWhile isDigit)
  else if c = '"' then string rest
  else symbol c rest

end Piece

/-- What can be wrong with a piece of text. -/
inductive ScanFault where
  | unterminatedString
  | loneBang
  | unexpectedChar (char : Char)
  | oversizedInt (digits : String)
deriving DecidableEq

namespace ScanFault

def code : ScanFault → Nat
  | .unterminatedString => 2001
  | .loneBang => 2002
  | .unexpectedChar _ => 2003
  | .oversizedInt _ => 2004

def message : ScanFault → String
  | .unterminatedString => "unterminated string literal"
  | .loneBang => "unexpected `!`"
  | .unexpectedChar char => "unexpected character " ++ quoted (escapedChar char)
  | .oversizedInt digits => "integer literal " ++ quoted digits ++ " does not fit in 64 bits"

def detail : ScanFault → Option String
  | .unterminatedString => some "string literals must close on the line they open"
  | .unexpectedChar char =>
    if char.toNat < 128 then none
    else some "only ASCII characters are allowed outside string literals"
  | .loneBang => none
  | .oversizedInt _ => none

def suggestions : ScanFault → List String
  | .loneBang => ["did you mean `!=`"]
  | .unterminatedString => []
  | .unexpectedChar _ => []
  | .oversizedInt _ => []

end ScanFault

/-- A fault and the piece of text it is about. -/
structure ScanError where
  fault : ScanFault
  span : Span
deriving DecidableEq

/-- The diagnostic for a fault of a file's text. -/
def ScanError.toDiagnostic (source : Source) (e : ScanError) : Diagnostic where
  layer := .lexer
  severity := .error
  code := e.fault.code
  message := e.fault.message
  anchors := [Anchor.ofSpan source e.span]
  detail := e.fault.detail
  suggestions := e.fault.suggestions

namespace Piece

/-- The kind of token that a piece stands for.  An integer that is too large still counts as
a number, so that the parser sees one. -/
def tokenKind? (p : Piece) : Option TokenKind :=
  match p.cls with
  | .token kind => some kind
  | .oversized => some (.int 0)
  | _ => none

/-- What is wrong with a piece. -/
def fault? (p : Piece) : Option ScanFault :=
  match p.cls with
  | .oversized => some (.oversizedInt (String.ofList p.text))
  | .unterminated => some .unterminatedString
  | .loneBang => some .loneBang
  | .unexpected => p.text.head?.map .unexpectedChar
  | _ => none

/-- The span of a piece that starts at an offset. -/
def span (p : Piece) (offset : Nat) : Span :=
  ⟨offset, byteLength p.text⟩

/-- The token of a piece that starts at an offset. -/
def token? (p : Piece) (offset : Nat) : Option Token :=
  p.tokenKind?.map fun kind => ⟨kind, String.ofList p.text, p.span offset⟩

/-- The error of a piece that starts at an offset. -/
def error? (p : Piece) (offset : Nat) : Option ScanError :=
  p.fault?.map fun fault => ⟨fault, p.span offset⟩

end Piece

/-- The pieces of a text, each with the offset at which it starts.  A run of the scanner begins
at `base`, and offsets in it count from there.  Behind the opening quote of a string that does
not close, scanning starts again with a new base. -/
def placedFrom (base start : Nat) : Nat → List Char → List (Nat × Piece)
  | _, [] => []
  | skip + 1, _ :: cs => placedFrom base start skip cs
  | 0, c :: cs =>
    let p := Piece.first c cs
    (base + start, p) ::
      if p.cls = .unterminated then
        placedFrom (base + start + 1) 0 0 cs
      else
        placedFrom base (start + byteLength p.text) (p.text.length - 1) cs

/-- The tokens of a text, ending in exactly one end-of-stream token. -/
def tokens (text : List Char) : List Token :=
  (placedFrom 0 0 0 text).filterMap (fun part => part.2.token? part.1) ++
    [⟨.eof, "", ⟨byteLength text, 0⟩⟩]

/-- The lexical errors of a text, in order. -/
def scanErrors (text : List Char) : List ScanError :=
  (placedFrom 0 0 0 text).filterMap fun part => part.2.error? part.1

end DeferLang
