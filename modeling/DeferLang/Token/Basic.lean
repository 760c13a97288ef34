import DeferLang.Text.Span

/-!
# Tokens

The vocabulary of the language: keywords, marks, identifiers and literals, and
the token that ends every stream.
-/

namespace DeferLang

/-- The reserved words. -/
inductive Keyword where
  | fnKw
  | ifKw
  | elseKw
  | whileKw
  | forKw
  | inKw
  | trueKw
  | falseKw
  | rangeKw
  | autoKw
  | intKw
  | boolKw
  | voidKw
  | classKw
  | defaultKw
  | explicitKw
  | constKw
  | operatorKw
  | returnKw
  | deferKw
deriving DecidableEq

namespace Keyword

/-- The spelling of a keyword. -/
def text : Keyword → String
  | .fnKw => "fn"
  | .ifKw => "if"
  | .elseKw => "else"
  | .whileKw => "while"
  | .forKw => "for"
  | .inKw => "in"
  | .trueKw => "true"
  | .falseKw => "false"
  | .rangeKw => "range"
  | .autoKw => "auto"
  | .intKw => "int"
  | .boolKw => "bool"
  | .voidKw => "void"
  | .classKw => "class"
  | .defaultKw => "default"
  | .explicitKw => "explicit"
  | .constKw => "const"
  | .operatorKw => "operator"
  | .returnKw => "return"
  | .deferKw => "defer"

/-- Every keyword. -/
def all : List Keyword :=
  [.fnKw, .ifKw, .elseKw, .whileKw, .forKw, .inKw, .trueKw, .falseKw, .rangeKw, .autoKw,
   .intKw, .boolKw, .voidKw, .classKw, .defaultKw, .explicitKw, .constKw, .operatorKw,
   .returnKw, .deferKw]

/-- The keyword with a given spelling. -/
def ofText? (word : String) : Option Keyword :=
  all.find? fun k => k.text = word

theorem mem_all (k : Keyword) : k ∈ all := by
  cases k <;> decide

end Keyword

/-- Punctuation and operators. -/
inductive Mark where
  | eqEq
  | notEq
  | lessEq
  | greaterEq
  | andAnd
  | lbrace
  | rbrace
  | lparen
  | rparen
  | semi
  | comma
  | colon
  | dot
  | assign
  | plus
  | minus
  | star
  | slash
  | percent
  | less
  | greater
  | amp
  | tilde
deriving DecidableEq

namespace Mark

/-- The spelling of a mark. -/
def chars : Mark → List Char
  | .eqEq => ['=', '=']
  | .notEq => ['!', '=']
  | .lessEq => ['<', '=']
  | .greaterEq => ['>', '=']
  | .andAnd => ['&', '&']
  | .lbrace => ['\x7b']
  | .rbrace => ['\x7d']
  | .lparen => ['(']
  | .rparen => [')']
  | .semi => [';']
  | .comma => [',']
  | .colon => [':']
  | .dot => ['.']
  | .assign => ['=']
  | .plus => ['+']
  | .minus => ['-']
  | .star => ['*']
  | .slash => ['/']
  | .percent => ['%']
  | .less => ['<']
  | .greater => ['>']
  | .amp => ['&']
  | .tilde => ['~']

/-- The spelling of a mark as a string. -/
def text (m : Mark) : String :=
  String.ofList m.chars

/-- Every mark, the longer ones first, so that the first that fits is the longest. -/
def all : List Mark :=
  [.eqEq, .notEq, .lessEq, .greaterEq, .andAnd, .lbrace, .rbrace, .lparen, .rparen, .semi,
   .comma, .colon, .dot, .assign, .plus, .minus, .star, .slash, .percent, .less, .greater,
   .amp, .tilde]

/-- The longest mark at the start of a text. -/
def at? (text : List Char) : Option Mark :=
  all.find? fun m => m.chars.isPrefixOf text

theorem mem_all (m : Mark) : m ∈ all := by
  cases m <;> decide

end Mark

/-- What a token is, with the value of those that have one. -/
inductive TokenKind where
  | keyword (word : Keyword)
  | mark (symbol : Mark)
  | ident (name : String)
  | int (value : Nat)
  | str (value : String)
  | eof
deriving DecidableEq

/-- `text` between backquotes, as messages quote source text. -/
def quoted (text : String) : String :=
  "`" ++ text ++ "`"

/-- What a token kind is called where a message asks for one. -/
def TokenKind.describe : TokenKind → String
  | .keyword word => quoted word.text
  | .mark m => quoted m.text
  | .ident _ => "identifier"
  | .int _ => "number"
  | .str _ => "string literal"
  | .eof => "end of input"

/-- A token with its exact source text, which is empty at the end of the stream. -/
structure Token where
  kind : TokenKind
  lexeme : String
  span : Span
deriving DecidableEq

end DeferLang
