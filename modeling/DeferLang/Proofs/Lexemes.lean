import DeferLang.Proofs.LineScanning
import DeferLang.Proofs.LongestMatch

/-!
# Scanning what is written with gaps

A lexeme is the written form of one token, and a gap is what can stand between two of
them: blanks and comments behind a first blank.  Lexemes that are written with gaps
between them are scanned back into the same lexemes, in order and with nothing to
report (`scan_written`).
-/

namespace DeferLang

/-- What stands between the quotes of a string literal, character by character. -/
inductive LiteralPart where
  | plain (c : Char) (hquote : c ≠ '"') (hline : c ≠ '\n') (hslash : c ≠ '\\')
  | quote
  | backslash (next : Char) (hquote : next ≠ '"') (hline : next ≠ '\n')

namespace LiteralPart

def text : LiteralPart → List Char
  | .plain c _ _ _ => [c]
  | .quote => ['\\', '"']
  | .backslash next _ _ => ['\\', next]

/-- What a part stands for: only the backslash before a quote is dropped. -/
def value : LiteralPart → List Char
  | .plain c _ _ _ => [c]
  | .quote => ['"']
  | .backslash next _ _ => ['\\', next]

theorem literalBody_text (parts : List LiteralPart) : LiteralBody (parts.flatMap text) := by
  induction parts with
  | nil => exact .nil
  | cons part parts ih =>
    cases part with
    | plain c hquote hline hslash => exact .plain hquote hline hslash ih
    | quote => exact .escaped (by decide) ih
    | backslash next hquote hline => exact .escaped hline ih

theorem unescapeQuotes_text (parts : List LiteralPart) :
    unescapeQuotes (parts.flatMap text) = parts.flatMap value := by
  induction parts with
  | nil => rfl
  | cons part parts ih =>
    cases part with
    | plain c hquote hline hslash =>
      change unescapeQuotes (c :: parts.flatMap text) = c :: parts.flatMap value
      rw [LiteralBody.unescapeQuotes_cons fun hboth => hslash hboth.1, ih]
    | quote =>
      change unescapeQuotes ('\\' :: '"' :: parts.flatMap text) = '"' :: parts.flatMap value
      rw [unescapeQuotes, if_pos ⟨rfl, rfl⟩, ih]
    | backslash next hquote hline =>
      have hslash : ¬('\\' = '\\' ∧ (next :: parts.flatMap text).head? = some '"') := fun hboth =>
        hquote (Option.some.inj hboth.2)
      -- the character behind a kept backslash is no escape of what follows it
      have hnext : ¬(next = '\\' ∧ (parts.flatMap text).head? = some '"') := fun hboth =>
        (literalBody_text parts).head?_ne_quote hboth.2
      change unescapeQuotes ('\\' :: next :: parts.flatMap text) =
        '\\' :: next :: parts.flatMap value
      rw [LiteralBody.unescapeQuotes_cons hslash, LiteralBody.unescapeQuotes_cons hnext, ih]

end LiteralPart

/-- The written forms of tokens.  A name is not spelled like a keyword, and a number may have
zeros in front. -/
inductive Lexeme where
  | keyword (word : Keyword)
  | mark (symbol : Mark)
  | name (word : String) (hword : Pattern.word.Matches word.toList)
      (hfree : ∀ k : Keyword, k.text ≠ word)
  | number (zeros value : Nat) (hfits : value < UInt64.size)
  | string (parts : List LiteralPart)

namespace Lexeme

/-- How a lexeme is written. -/
def text : Lexeme → List Char
  | .keyword word => word.text.toList
  | .mark symbol => symbol.chars
  | .name word _ _ => word.toList
  | .number zeros value _ => List.replicate zeros '0' ++ Nat.toDigits 10 value
  | .string parts => '"' :: (parts.flatMap LiteralPart.text ++ ['"'])

/-- What a lexeme stands for. -/
def kind : Lexeme → TokenKind
  | .keyword word => .keyword word
  | .mark symbol => .mark symbol
  | .name word _ _ => .ident word
  | .number _ value _ => .int value
  | .string parts => .str (String.ofList (parts.flatMap LiteralPart.value))

theorem wordKind_of_free {word : String} (hfree : ∀ k : Keyword, k.text ≠ word) :
    wordKind word.toList = .ident word := by
  have hnone : Keyword.ofText? word = none :=
    List.find?_eq_none.2 fun k _ hk => hfree k (of_decide_eq_true hk)
  rw [wordKind, String.ofList_toList, hnone]

theorem isToken_name {word : String} (hword : Pattern.word.Matches word.toList)
    (hfree : ∀ k : Keyword, k.text ≠ word) : IsToken word.toList (.ident word) := by
  obtain ⟨c, cs, hc, hcs, hchars⟩ := Pattern.matches_one_seq_iff.1 hword
  rw [← wordKind_of_free hfree, hchars]
  exact isToken_word hc (Pattern.matches_many_one_iff.1 hcs)

/-- Zeros in front do not count. -/
theorem digitsValue_zeros (zeros : Nat) (digits : List Char) :
    digitsValue (List.replicate zeros '0' ++ digits) = digitsValue digits := by
  induction zeros with
  | zero => rfl
  | succ zeros ih => exact ih

theorem isToken_number (zeros : Nat) {value : Nat} (hfits : value < UInt64.size) :
    IsToken (List.replicate zeros '0' ++ Nat.toDigits 10 value) (.int value) := by
  have hvalue : digitsValue (List.replicate zeros '0' ++ Nat.toDigits 10 value) = value :=
    (digitsValue_zeros zeros _).trans Nat.ofDigitChars_ten_toDigits
  have hdigits : (List.replicate zeros '0' ++ Nat.toDigits 10 value).all isDigit = true := by
    refine List.all_eq_true.2 fun c hc => ?_
    rcases List.mem_append.1 hc with hzero | hdigit
    · rw [List.eq_of_mem_replicate hzero]
      decide
    · exact Nat.isDigit_of_mem_toDigits (by decide) (by decide) hdigit
  have hne : List.replicate zeros '0' ++ Nat.toDigits 10 value ≠ [] :=
    List.append_ne_nil_of_right_ne_nil _ Nat.toDigits_ne_nil
  obtain ⟨c, cs, hcons⟩ := List.exists_cons_of_ne_nil hne
  rw [hcons] at hvalue hdigits ⊢
  have htoken := isToken_digits hdigits (hvalue.symm ▸ hfits)
  rwa [hvalue] at htoken

/-- A lexeme is one token, whatever follows it behind a gap. -/
theorem isToken (l : Lexeme) : IsToken l.text l.kind := by
  cases l with
  | keyword word => exact isToken_keyword word
  | mark symbol => exact isToken_mark symbol
  | name word hword hfree => exact isToken_name hword hfree
  | number zeros value hfits => exact isToken_number zeros hfits
  | string parts =>
    have hliteral := isToken_literal (LiteralPart.literalBody_text parts)
    rwa [LiteralPart.unescapeQuotes_text] at hliteral

end Lexeme

/-- What no token is made of: a blank, or a comment with the newline that ends it. -/
inductive Filler where
  | blank (c : Char) (hblank : isBlank c = true)
  | comment (words : List Char) (hline : '\n' ∉ words)

def Filler.text : Filler → List Char
  | .blank c _ => [c]
  | .comment words _ => '/' :: '/' :: (words ++ ['\n'])

/-- What stands between two lexemes.  It starts with a blank, so that a comment does not run
into the lexeme before it. -/
structure Gap where
  first : Char
  isBlank_first : isBlank first = true
  fillers : List Filler

def Gap.text (g : Gap) : List Char :=
  g.first :: g.fillers.flatMap Filler.text

/-- Lexemes in a row, with the gaps between them. -/
def written (gaps : Nat → Gap) : List Lexeme → List Char
  | [] => []
  | [l] => l.text
  | l :: l' :: ls => l.text ++ ((gaps 0).text ++ written (fun n => gaps (n + 1)) (l' :: ls))

section Scanning

variable (offset : Nat) (rest : List Char)

theorem scanFrom_comment {words : List Char} (hline : '\n' ∉ words) :
    scanFrom offset ('/' :: '/' :: words) =
      ([⟨.eof, "", ⟨offset + byteLength ('/' :: '/' :: words), 0⟩⟩], []) := by
  have hall : words.takeWhile (· ≠ '\n') = words := by
    refine List.takeWhile_eq_self_iff.2 fun c hc => decide_eq_true ?_
    rintro rfl
    exact hline hc
  have hfirst : Piece.first '/' ('/' :: words) = ⟨.comment, '/' :: '/' :: words⟩ := by
    change (⟨.comment, '/' :: ('/' :: words).takeWhile (· ≠ '\n')⟩ : Piece) = _
    rw [List.takeWhile_cons_of_pos (by decide), hall]
  have hpieces : pieces ('/' :: '/' :: words) = [⟨.comment, '/' :: '/' :: words⟩] := by
    rw [pieces_cons, hfirst]
    simp [pieces, piecesFrom]
  rw [scanFrom, hpieces]
  rfl

theorem scanFrom_filler (f : Filler) :
    scanFrom offset (f.text ++ rest) = scanFrom (offset + byteLength f.text) rest := by
  cases f with
  | blank c hblank => exact scanFrom_blank hblank offset rest
  | comment words hline =>
    have htext : (Filler.comment words hline).text ++ rest =
        ('/' :: '/' :: words) ++ '\n' :: rest := by
      simp [Filler.text]
    have hlength : byteLength (Filler.comment words hline).text =
        byteLength ('/' :: '/' :: words) + 1 := by
      change byteLength (('/' :: '/' :: words) ++ ['\n']) = _
      rw [byteLength_append]
      rfl
    rw [htext, hlength, scanFrom_append_newline, scanFrom_comment offset hline]
    rfl

theorem scanFrom_fillers (fs : List Filler) :
    scanFrom offset (fs.flatMap Filler.text ++ rest) =
      scanFrom (offset + byteLength (fs.flatMap Filler.text)) rest := by
  induction fs generalizing offset with
  | nil => rfl
  | cons f fs ih =>
    rw [List.flatMap_cons, List.append_assoc, scanFrom_filler, ih, byteLength_append, Nat.add_assoc]

theorem scanFrom_gap (g : Gap) :
    scanFrom offset (g.text ++ rest) = scanFrom (offset + byteLength g.text) rest := by
  rw [Gap.text, List.cons_append, scanFrom_blank g.isBlank_first, scanFrom_fillers, byteLength,
    Nat.add_assoc]

/-- A lexeme is scanned into its token. -/
theorem scanFrom_lexeme (l : Lexeme) (hapart : Apart l.text rest) :
    scanFrom offset (l.text ++ rest) =
      (⟨l.kind, String.ofList l.text, ⟨offset, byteLength l.text⟩⟩ ::
          (scanFrom (offset + byteLength l.text) rest).1,
        (scanFrom (offset + byteLength l.text) rest).2) := by
  rw [scanFrom, l.isToken rest hapart]
  rfl

theorem apart_gap (text : List Char) (g : Gap) : Apart text (g.text ++ rest) := by
  have hsolid : isSolid g.first = true := by simp [isSolid, g.isBlank_first]
  exact apart_solid hsolid text _

/-- What is written is scanned back, wherever it starts. -/
theorem scanFrom_written (gaps : Nat → Gap) (ls : List Lexeme) :
    (scanFrom offset (written gaps ls)).2 = [] ∧
      (scanFrom offset (written gaps ls)).1.map (fun t => (t.kind, t.lexeme)) =
        ls.map (fun l => (l.kind, String.ofList l.text)) ++ [(.eof, "")] := by
  induction ls generalizing offset gaps with
  | nil => exact ⟨rfl, rfl⟩
  | cons l ls ih =>
    cases ls with
    | nil =>
      have hlast := scanFrom_lexeme offset [] l (by simp [Apart])
      rw [List.append_nil] at hlast
      rw [written, hlast]
      exact ⟨rfl, rfl⟩
    | cons l' ls =>
      rw [written, scanFrom_lexeme offset _ l (apart_gap _ _ _), scanFrom_gap]
      obtain ⟨herrors, htokens⟩ := ih
        (offset + byteLength l.text + byteLength (gaps 0).text) (fun n => gaps (n + 1))
      exact ⟨herrors, congrArg ((l.kind, String.ofList l.text) :: ·) htokens⟩

end Scanning

/-- Lexemes that are written with gaps between them are scanned into one token each, in order and
with what they stand for, then the end of the stream, and nothing is reported. -/
theorem scan_written (gaps : Nat → Gap) (ls : List Lexeme) :
    scanErrors (written gaps ls) = [] ∧
      (tokens (written gaps ls)).map (fun t => (t.kind, t.lexeme)) =
        ls.map (fun l => (l.kind, String.ofList l.text)) ++ [(.eof, "")] := by
  rw [scanErrors_eq, tokens_eq]
  exact scanFrom_written 0 gaps ls

end DeferLang
