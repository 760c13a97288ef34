import DeferLang.Proofs.Spelling

/-!
# Patterns of tokens, and the longest match

The lexical rules are regular expressions over classes of characters.  At every
place of a text the scanner takes the longest text that a rule matches
(`Piece.Explained`).  Only a string that does not close is different: it gives up
its quote, which is all that is taken.
-/

namespace DeferLang

open List

/-- Regular expressions over classes of characters. -/
inductive Pattern where
  | empty
  | one (cls : Char → Bool)
  | seq (first second : Pattern)
  | either (left right : Pattern)
  | many (inner : Pattern)

namespace Pattern

/-- The texts of a pattern. -/
inductive Matches : Pattern → List Char → Prop where
  | empty : Matches .empty []
  | one {cls : Char → Bool} {c : Char} (h : cls c = true) : Matches (.one cls) [c]
  | seq {p q : Pattern} {u v : List Char} (hfirst : Matches p u) (hsecond : Matches q v) :
      Matches (.seq p q) (u ++ v)
  | left {p q : Pattern} {w : List Char} (h : Matches p w) : Matches (.either p q) w
  | right {p q : Pattern} {w : List Char} (h : Matches q w) : Matches (.either p q) w
  | none {p : Pattern} : Matches (.many p) []
  | more {p : Pattern} {u v : List Char} (hfirst : Matches p u) (hrest : Matches (.many p) v) :
      Matches (.many p) (u ++ v)

/-- A text as it stands. -/
def literal : List Char → Pattern
  | [] => .empty
  | c :: cs => .seq (.one (· = c)) (literal cs)

/-- One character or more of a class. -/
def run (cls : Char → Bool) : Pattern :=
  .seq (.one cls) (.many (.one cls))

/-- What can stand between quotes, `([^"\\\n]|\\[^\n])*`. -/
def literalBody : Pattern :=
  .many (.either (.one fun c => c ≠ '"' && c ≠ '\\' && c ≠ '\n')
    (.seq (.one (· = '\\')) (.one (· ≠ '\n'))))

/-- Names, `[A-Za-z_][A-Za-z0-9_]*`. -/
def word : Pattern :=
  .seq (.one isWordStart) (.many (.one isWordPart))

/-- Numbers, `[0-9]+`. -/
def digits : Pattern :=
  run isDigit

/-- Strings, `"([^"\\\n]|\\[^\n])*"`. -/
def string : Pattern :=
  .seq (.one (· = '"')) (.seq literalBody (.one (· = '"')))

variable {p q : Pattern} {w : List Char} {cls : Char → Bool}

/-- What holds of nothing, and goes on to hold with one more round, holds of all rounds. -/
theorem Matches.many_induction {motive : List Char → Prop} (hnone : motive [])
    (hmore : ∀ u v, p.Matches u → motive v → motive (u ++ v)) (h : (many p).Matches w) :
    motive w := by
  generalize hpattern : many p = pattern at h
  induction h with
  | none => exact hnone
  | more hfirst hrest ihfirst ihrest =>
    obtain rfl := Pattern.many.inj hpattern
    exact hmore _ _ hfirst (ihrest rfl)
  | empty | one h | seq hfirst hsecond | left h | right h => contradiction

theorem matches_one_iff : (one cls).Matches w ↔ ∃ c, cls c = true ∧ w = [c] := by
  constructor
  · intro h
    cases h with
    | @one _ c h => exact ⟨c, h, rfl⟩
  · rintro ⟨c, h, rfl⟩
    exact .one h

theorem matches_seq_iff : (seq p q).Matches w ↔ ∃ u v, p.Matches u ∧ q.Matches v ∧ w = u ++ v := by
  constructor
  · intro h
    cases h with
    | @seq _ _ u v hfirst hsecond => exact ⟨u, v, hfirst, hsecond, rfl⟩
  · rintro ⟨u, v, hfirst, hsecond, rfl⟩
    exact .seq hfirst hsecond

/-- A character of a class, and what follows it. -/
theorem matches_one_seq_iff :
    (seq (one cls) q).Matches w ↔ ∃ c v, cls c = true ∧ q.Matches v ∧ w = c :: v := by
  rw [matches_seq_iff]
  constructor
  · rintro ⟨u, v, hfirst, hsecond, rfl⟩
    obtain ⟨c, hc, rfl⟩ := matches_one_iff.1 hfirst
    exact ⟨c, v, hc, hsecond, rfl⟩
  · rintro ⟨c, v, hc, hsecond, rfl⟩
    exact ⟨[c], v, .one hc, hsecond, rfl⟩

theorem matches_literal_iff {text : List Char} : (literal text).Matches w ↔ w = text := by
  induction text generalizing w with
  | nil =>
    constructor
    · intro h
      cases h
      rfl
    · rintro rfl
      exact .empty
  | cons c cs ih =>
    rw [literal, matches_one_seq_iff]
    simp [ih]

theorem matches_many_one_iff : (many (one cls)).Matches w ↔ w.all cls = true := by
  constructor
  · intro h
    refine h.many_induction (motive := fun w => w.all cls = true) rfl fun u v hu hv => ?_
    obtain ⟨c, hc, rfl⟩ := matches_one_iff.1 hu
    simpa [hc] using hv
  · intro h
    induction w with
    | nil => exact .none
    | cons c w ih =>
      rw [all_cons, Bool.and_eq_true] at h
      exact .more (u := [c]) (.one h.1) (ih h.2)

theorem matches_run_iff :
    (run cls).Matches w ↔ ∃ c v, cls c = true ∧ v.all cls = true ∧ w = c :: v := by
  simp only [run, matches_one_seq_iff, matches_many_one_iff]

theorem matches_literalBody_iff : literalBody.Matches w ↔ LiteralBody w := by
  constructor
  · intro h
    refine h.many_induction .nil fun u v hu hv => ?_
    cases hu with
    | left h =>
      obtain ⟨c, hc, rfl⟩ := matches_one_iff.1 h
      simp only [Bool.and_eq_true, decide_eq_true_eq] at hc
      exact .plain hc.1.1 hc.2 hc.1.2 hv
    | right h =>
      obtain ⟨c, v', hc, hescaped, rfl⟩ := matches_one_seq_iff.1 h
      obtain ⟨d, hd, rfl⟩ := matches_one_iff.1 hescaped
      obtain rfl := of_decide_eq_true hc
      exact .escaped (of_decide_eq_true hd) hv
  · intro h
    induction h with
    | nil => exact .none
    | @plain c cs hquote hline hslash h ih =>
      exact .more (u := [c]) (.left (.one (by simp [hquote, hline, hslash]))) ih
    | @escaped d ds hline h ih =>
      exact .more (u := ['\\', d])
        (.right (.seq (u := ['\\']) (.one (by simp)) (.one (by simp [hline])))) ih

theorem matches_string_iff :
    string.Matches w ↔ ∃ body, LiteralBody body ∧ w = '"' :: (body ++ ['"']) := by
  rw [string, matches_one_seq_iff]
  constructor
  · rintro ⟨c, v, hc, hv, rfl⟩
    obtain ⟨body, close, hbody, hclose, rfl⟩ := matches_seq_iff.1 hv
    obtain ⟨d, hd, rfl⟩ := matches_one_iff.1 hclose
    obtain rfl := of_decide_eq_true hc
    obtain rfl := of_decide_eq_true hd
    exact ⟨body, matches_literalBody_iff.1 hbody, rfl⟩
  · rintro ⟨body, hbody, rfl⟩
    exact ⟨'"', _, rfl, .seq (matches_literalBody_iff.2 hbody) (.one rfl), rfl⟩

end Pattern

/-- The rules of the scanner. -/
inductive ScanRule where
  | blanks
  | comment
  | mark (symbol : Mark)
  | bang
  | number
  | string
  | openString
  | word
deriving DecidableEq

/-- The pattern of a rule. -/
def ScanRule.pattern : ScanRule → Pattern
  | .blanks => .run isBlank
  | .comment => .seq (.literal ['/', '/']) (.many (.one (· ≠ '\n')))
  | .mark m => .literal m.chars
  | .bang => .literal ['!']
  | .number => .digits
  | .string => .string
  | .openString => .seq (.one (· = '"')) .literalBody
  | .word => .word

/-- The pattern of the tokens of a kind. -/
def TokenKind.pattern : TokenKind → Pattern
  | .keyword word => .literal word.text.toList
  | .mark m => .literal m.chars
  | .ident _ => .word
  | .int _ => .digits
  | .str _ => .string
  | .eof => .empty

/-- No rule matches more of a text than `w`. -/
def NoLonger (w text : List Char) : Prop :=
  ∀ (rule : ScanRule) (w' : List Char), w' <+: text → rule.pattern.Matches w' →
    w'.length ≤ w.length

namespace ScanRule

/-- The characters that a text of a rule can begin with. -/
def begins : ScanRule → Char → Bool
  | .blanks, c => isBlank c
  | .comment, c => c = '/'
  | .mark m, c => m.chars.head? = some c
  | .bang, c => c = '!'
  | .number, c => isDigit c
  | .string, c => c = '"'
  | .openString, c => c = '"'
  | .word, c => isWordStart c

variable {rule : ScanRule} {c : Char} {w cs : List Char}

theorem exists_cons_of_matches (h : rule.pattern.Matches w) :
    ∃ c v, w = c :: v ∧ rule.begins c = true := by
  have hhead {cls : Char → Bool} {q : Pattern} {w : List Char}
      (h : (Pattern.seq (.one cls) q).Matches w) : ∃ c v, w = c :: v ∧ cls c = true := by
    obtain ⟨c, v, hc, -, rfl⟩ := Pattern.matches_one_seq_iff.1 h
    exact ⟨c, v, rfl, hc⟩
  cases rule with
  | blanks | number | string | openString | word => exact hhead h
  | comment =>
    obtain ⟨u, v, hslashes, -, rfl⟩ := Pattern.matches_seq_iff.1 h
    obtain rfl := Pattern.matches_literal_iff.1 hslashes
    exact ⟨'/', '/' :: v, rfl, rfl⟩
  | mark m =>
    obtain rfl := Pattern.matches_literal_iff.1 h
    cases m <;> exact ⟨_, _, rfl, rfl⟩
  | bang =>
    obtain rfl := Pattern.matches_literal_iff.1 h
    exact ⟨'!', [], rfl, rfl⟩

/-- Which rules can match is seen from the first character. -/
theorem begins_of_matches (h : rule.pattern.Matches w) (hfront : w <+: c :: cs) :
    rule.begins c = true := by
  obtain ⟨d, v, rfl, hbegins⟩ := exists_cons_of_matches h
  obtain ⟨rfl, -⟩ := cons_prefix_cons.1 hfront
  exact hbegins

theorem begins_mark {m : Mark} (h : (mark m).begins c = true) :
    isBlank c = false ∧ isWordStart c = false ∧ isDigit c = false ∧ c ≠ '"' := by
  have hhead : m.chars.head? = some c := of_decide_eq_true h
  cases m <;> obtain rfl := Option.some.inj hhead <;> decide

theorem eq_blanks_of_begins (hc : isBlank c = true) (h : rule.begins c = true) :
    rule = .blanks := by
  have hcases : c = ' ' ∨ c = '\t' ∨ c = '\r' ∨ c = '\n' ∨ c = '\x0c' := by
    simpa [isBlank, or_assoc] using hc
  cases rule with
  | blanks => rfl
  | mark m => simp [(begins_mark h).1] at hc
  | _ => rcases hcases with rfl | rfl | rfl | rfl | rfl <;> revert h <;> decide

theorem eq_word_of_begins (hc : isWordStart c = true) (h : rule.begins c = true) :
    rule = .word := by
  have hpart : isWordPart c = true := by rw [isWordPart, hc, Bool.true_or]
  cases rule with
  | word => rfl
  | blanks => simp [begins, isBlank_of_isWordPart hpart] at h
  | number => simp [isWordStart_of_isDigit h] at hc
  | mark m => simp [(begins_mark h).2.1] at hc
  | _ =>
    obtain rfl := of_decide_eq_true h
    contradiction

theorem eq_number_of_begins (hc : isDigit c = true) (h : rule.begins c = true) :
    rule = .number := by
  have hpart : isWordPart c = true := by rw [isWordPart, hc, Bool.or_true]
  cases rule with
  | number => rfl
  | blanks => simp [begins, isBlank_of_isWordPart hpart] at h
  | word => simp [begins, isWordStart_of_isDigit hc] at h
  | mark m => simp [(begins_mark h).2.2.1] at hc
  | _ =>
    obtain rfl := of_decide_eq_true h
    contradiction

theorem eq_string_of_begins (h : rule.begins '"' = true) : rule = .string ∨ rule = .openString := by
  cases rule with
  | string => exact .inl rfl
  | openString => exact .inr rfl
  | mark m => exact absurd rfl (begins_mark h).2.2.2
  | _ => contradiction

theorem eq_of_begins_symbol (hblank : isBlank c = false) (hword : isWordStart c = false)
    (hdigit : isDigit c = false) (hquote : c ≠ '"') (h : rule.begins c = true) :
    rule = .comment ∨ (∃ m, rule = .mark m) ∨ rule = .bang := by
  cases rule with
  | comment => exact .inl rfl
  | mark m => exact .inr (.inl ⟨m, rfl⟩)
  | bang => exact .inr (.inr rfl)
  | _ => simp_all [begins]

end ScanRule

section Runs

variable {cls : Char → Bool} {w text : List Char}

/-- A run at the start of a text ends where the longest one does at the latest. -/
theorem length_le_takeWhile (hfront : w <+: text) (hall : w.all cls = true) :
    w.length ≤ (text.takeWhile cls).length := by
  obtain ⟨rest, rfl⟩ := hfront
  rw [takeWhile_append_of_pos (all_eq_true.1 hall), length_append]
  omega

theorem matches_takeWhile (cls : Char → Bool) (text : List Char) :
    (Pattern.many (.one cls)).Matches (text.takeWhile cls) :=
  Pattern.matches_many_one_iff.2 all_takeWhile

end Runs

section Literals

variable {body rest : List Char}

/-- What can stand in a literal does not go past the quote that closes it. -/
theorem LiteralBody.length_le {w : List Char} (hw : LiteralBody w) (hfront : w <+: rest)
    (h : stringBody rest = some body) : w.length ≤ body.length := by
  induction hw generalizing rest body with
  | nil => exact Nat.zero_le _
  | @plain c cs hquote hline hslash _ ih =>
    obtain ⟨more, rfl⟩ := hfront
    rw [cons_append, stringBody_plain hquote hline hslash, Option.map_eq_some_iff] at h
    obtain ⟨body', hbody, rfl⟩ := h
    have hle := ih (prefix_append _ _) hbody
    simpa using hle
  | @escaped d ds hline _ ih =>
    obtain ⟨more, rfl⟩ := hfront
    rw [cons_append, cons_append, stringBody_escaped hline, Option.map_eq_some_iff] at h
    obtain ⟨body', hbody, rfl⟩ := h
    have hle := ih (prefix_append _ _) hbody
    simpa using hle

end Literals

namespace Piece

/-- A piece is the longest match at the start of a text; at a quote that opens no literal only the
quote is taken, and at a character that begins nothing only the character. -/
def Explained (p : Piece) (text : List Char) : Prop :=
  match p.cls with
  | .blank => ScanRule.blanks.pattern.Matches p.text ∧ NoLonger p.text text
  | .comment => ScanRule.comment.pattern.Matches p.text ∧ NoLonger p.text text
  | .token kind => kind.pattern.Matches p.text ∧ NoLonger p.text text
  | .oversized => Pattern.digits.Matches p.text ∧ NoLonger p.text text
  | .loneBang => ScanRule.bang.pattern.Matches p.text ∧ NoLonger p.text text
  | .unterminated => p.text = ['"'] ∧
      ∀ (rule : ScanRule) (w : List Char), w <+: text → rule.pattern.Matches w → rule = .openString
  | .unexpected => (∃ c, p.text = [c]) ∧
      ∀ (rule : ScanRule) (w : List Char), w <+: text → ¬rule.pattern.Matches w

variable {c : Char} {cs : List Char}

theorem explained_blanks (hc : isBlank c = true) :
    Explained ⟨.blank, c :: cs.takeWhile isBlank⟩ (c :: cs) := by
  refine ⟨.seq (.one hc) (matches_takeWhile isBlank cs), fun rule w hfront hmatch => ?_⟩
  obtain rfl := ScanRule.eq_blanks_of_begins hc (ScanRule.begins_of_matches hmatch hfront)
  obtain ⟨d, v, -, hall, rfl⟩ := Pattern.matches_run_iff.1 hmatch
  have hle := length_le_takeWhile (cons_prefix_cons.1 hfront).2 hall
  simpa using hle

theorem noLonger_word (hc : isWordStart c = true) :
    NoLonger (c :: cs.takeWhile isWordPart) (c :: cs) := by
  intro rule w hfront hmatch
  obtain rfl := ScanRule.eq_word_of_begins hc (ScanRule.begins_of_matches hmatch hfront)
  obtain ⟨d, v, -, hall, rfl⟩ := Pattern.matches_one_seq_iff.1 hmatch
  have hle := length_le_takeWhile (cons_prefix_cons.1 hfront).2
    (Pattern.matches_many_one_iff.1 hall)
  simpa using hle

theorem explained_word (hc : isWordStart c = true) :
    Explained ⟨.token (wordKind (c :: cs.takeWhile isWordPart)), c :: cs.takeWhile isWordPart⟩
      (c :: cs) := by
  refine ⟨?_, noLonger_word hc⟩
  have hword : Pattern.word.Matches (c :: cs.takeWhile isWordPart) :=
    .seq (.one hc) (matches_takeWhile isWordPart cs)
  simp only [wordKind]
  split
  · rename_i word hfound
    -- a keyword is found by its spelling
    have hspelled : word.text = String.ofList (c :: cs.takeWhile isWordPart) := by
      unfold Keyword.ofText? at hfound
      simpa using List.find?_some hfound
    rw [TokenKind.pattern, Pattern.matches_literal_iff, hspelled, String.toList_ofList]
  · exact hword

theorem explained_number (hc : isDigit c = true) :
    (number (c :: cs.takeWhile isDigit)).Explained (c :: cs) := by
  have hdigits : Pattern.digits.Matches (c :: cs.takeWhile isDigit) :=
    .seq (.one hc) (matches_takeWhile isDigit cs)
  have hlongest : NoLonger (c :: cs.takeWhile isDigit) (c :: cs) := by
    intro rule w hfront hmatch
    obtain rfl := ScanRule.eq_number_of_begins hc (ScanRule.begins_of_matches hmatch hfront)
    obtain ⟨d, v, -, hall, rfl⟩ := Pattern.matches_run_iff.1 hmatch
    have hle := length_le_takeWhile (cons_prefix_cons.1 hfront).2 hall
    simpa using hle
  unfold number
  dsimp only
  split
  · exact ⟨hdigits, hlongest⟩
  · exact ⟨hdigits, hlongest⟩

theorem explained_string (cs : List Char) : (string cs).Explained ('"' :: cs) := by
  have hrule {rule : ScanRule} {w : List Char} (hfront : w <+: '"' :: cs)
      (hmatch : rule.pattern.Matches w) : rule = .string ∨ rule = .openString :=
    ScanRule.eq_string_of_begins (ScanRule.begins_of_matches hmatch hfront)
  have hclosed {body : List Char} (hbody : LiteralBody body)
      (hfront : '"' :: (body ++ ['"']) <+: '"' :: cs) : stringBody cs = some body := by
    obtain ⟨more, hmore⟩ := (cons_prefix_cons.1 hfront).2
    rw [← hmore, append_assoc]
    exact hbody.stringBody_append more
  unfold string
  split
  · rename_i body hbody
    refine ⟨Pattern.matches_string_iff.2 ⟨body, (stringBody_spec hbody).1, rfl⟩, ?_⟩
    intro rule w hfront hmatch
    rcases hrule hfront hmatch with rfl | rfl
    · obtain ⟨body', hbody', rfl⟩ := Pattern.matches_string_iff.1 hmatch
      obtain rfl := Option.some.inj ((hclosed hbody' hfront).symm.trans hbody)
      exact Nat.le_refl _
    · obtain ⟨d, v, -, hv, rfl⟩ := Pattern.matches_one_seq_iff.1 hmatch
      have hle := (Pattern.matches_literalBody_iff.1 hv).length_le
        (cons_prefix_cons.1 hfront).2 hbody
      simp only [length_cons, length_append]
      omega
  · rename_i hopen
    refine ⟨rfl, fun rule w hfront hmatch => ?_⟩
    rcases hrule hfront hmatch with rfl | rfl
    · obtain ⟨body', hbody', rfl⟩ := Pattern.matches_string_iff.1 hmatch
      rw [hclosed hbody' hfront] at hopen
      contradiction
    · rfl

/-- Marks are tried from the longest to the shortest. -/
theorem length_le_of_at {m m' : Mark} {text : List Char} (h : Mark.at? text = some m)
    (hfront : m'.chars <+: text) : m'.chars.length ≤ m.chars.length := by
  have hsorted : Mark.all.Pairwise fun a b => b.chars.length ≤ a.chars.length := by decide
  obtain ⟨-, before, behind, hall, hbefore⟩ := List.find?_eq_some_iff_append.1 h
  have hmem : m' ∈ before ++ m :: behind := hall ▸ m'.mem_all
  rw [hall, pairwise_append] at hsorted
  rcases mem_append.1 hmem with hmem | hmem
  · have hfits := hbefore m' hmem
    rw [List.isPrefixOf_iff_prefix.2 hfront] at hfits
    contradiction
  · rcases mem_cons.1 hmem with rfl | hmem
    · exact Nat.le_refl _
    · exact rel_of_pairwise_cons hsorted.2.1 hmem

theorem explained_comment (cs : List Char) :
    Explained ⟨.comment, '/' :: '/' :: cs.takeWhile (· ≠ '\n')⟩ ('/' :: '/' :: cs) := by
  refine ⟨.seq (Pattern.matches_literal_iff.2 rfl) (matches_takeWhile _ cs), ?_⟩
  intro rule w hfront hmatch
  rcases ScanRule.eq_of_begins_symbol (by decide) (by decide) (by decide) (by decide)
    (ScanRule.begins_of_matches hmatch hfront) with rfl | ⟨m, rfl⟩ | rfl
  · obtain ⟨u, v, hslashes, hall, rfl⟩ := Pattern.matches_seq_iff.1 hmatch
    obtain rfl := Pattern.matches_literal_iff.1 hslashes
    have hrest : v <+: cs := by simpa using hfront
    have hle := length_le_takeWhile hrest (Pattern.matches_many_one_iff.1 hall)
    simpa using hle
  · obtain rfl := Pattern.matches_literal_iff.1 hmatch
    have hshort : m.chars.length ≤ 2 := by cases m <;> decide
    simp only [length_cons]
    omega
  · obtain rfl := Pattern.matches_literal_iff.1 hmatch
    simp

/-- A symbol that is no comment is the longest mark that fits, if there is one. -/
theorem explained_symbol (hblank : isBlank c = false) (hword : isWordStart c = false)
    (hdigit : isDigit c = false) (hquote : c ≠ '"') : (symbol c cs).Explained (c :: cs) := by
  unfold symbol
  split
  · rename_i hcomment
    obtain ⟨rfl, hnext⟩ := hcomment
    obtain ⟨cs', rfl⟩ : ∃ cs', cs = '/' :: cs' := by
      cases cs with
      | nil => contradiction
      | cons d ds => exact ⟨ds, by rw [Option.some.inj hnext]⟩
    exact explained_comment cs'
  · rename_i hcomment
    have hrule {rule : ScanRule} {w : List Char} (hfront : w <+: c :: cs)
        (hmatch : rule.pattern.Matches w) : (∃ m, rule = .mark m) ∨ rule = .bang := by
      rcases ScanRule.eq_of_begins_symbol hblank hword hdigit hquote
        (ScanRule.begins_of_matches hmatch hfront) with rfl | hrule
      · obtain ⟨u, v, hslashes, -, rfl⟩ := Pattern.matches_seq_iff.1 hmatch
        obtain rfl := Pattern.matches_literal_iff.1 hslashes
        obtain ⟨rfl, hrest⟩ := cons_prefix_cons.1 hfront
        obtain ⟨more, rfl⟩ := hrest
        exact absurd ⟨rfl, rfl⟩ hcomment
      · exact hrule
    split
    · rename_i m hat
      refine ⟨Pattern.matches_literal_iff.2 rfl, fun rule w hfront hmatch => ?_⟩
      rcases hrule hfront hmatch with ⟨m', rfl⟩ | rfl
      · obtain rfl := Pattern.matches_literal_iff.1 hmatch
        exact length_le_of_at hat hfront
      · obtain rfl := Pattern.matches_literal_iff.1 hmatch
        cases m <;> simp [Mark.chars]
    · rename_i hat
      have hnone {m : Mark} (hfront : m.chars <+: c :: cs) : False := by
        have hfits := List.find?_eq_none.1 hat m m.mem_all
        exact hfits (List.isPrefixOf_iff_prefix.2 hfront)
      split
      · rename_i hbang
        subst hbang
        refine ⟨Pattern.matches_literal_iff.2 rfl, fun rule w hfront hmatch => ?_⟩
        rcases hrule hfront hmatch with ⟨m, rfl⟩ | rfl
        · obtain rfl := Pattern.matches_literal_iff.1 hmatch
          exact (hnone hfront).elim
        · obtain rfl := Pattern.matches_literal_iff.1 hmatch
          exact Nat.le_refl _
      · rename_i hbang
        refine ⟨⟨c, rfl⟩, fun rule w hfront hmatch => ?_⟩
        rcases hrule hfront hmatch with ⟨m, rfl⟩ | rfl
        · obtain rfl := Pattern.matches_literal_iff.1 hmatch
          exact hnone hfront
        · obtain rfl := Pattern.matches_literal_iff.1 hmatch
          exact hbang (cons_prefix_cons.1 hfront).1.symm

/-- The first piece of a text is the longest match. -/
theorem explained_first (c : Char) (cs : List Char) : (first c cs).Explained (c :: cs) := by
  unfold first
  split
  · rename_i hblank
    exact explained_blanks hblank
  · rename_i hblank
    split
    · rename_i hword
      exact explained_word hword
    · rename_i hword
      split
      · rename_i hdigit
        exact explained_number hdigit
      · rename_i hdigit
        split
        · rename_i hquote
          subst hquote
          exact explained_string cs
        · rename_i hquote
          exact explained_symbol (eq_false_of_ne_true hblank) (eq_false_of_ne_true hword)
            (eq_false_of_ne_true hdigit) hquote

/-- The end of the stream has no text, so no piece stands for it. -/
theorem cls_ne_eof {p : Piece} {text : List Char} (h : p.Explained text) (hne : p.text ≠ []) :
    p.cls ≠ .token .eof := by
  intro hcls
  unfold Explained at h
  rw [hcls] at h
  have hempty : (Pattern.literal []).Matches p.text := h.1
  exact hne (Pattern.matches_literal_iff.1 hempty)

/-- The first piece of a text is some of the text, and at least a character. -/
theorem exists_rest_first (c : Char) (cs : List Char) :
    (first c cs).text ≠ [] ∧ ∃ rest, c :: cs = (first c cs).text ++ rest := by
  have hrun (cls : Char → Bool) : ∃ rest, c :: cs = (c :: cs.takeWhile cls) ++ rest :=
    ⟨cs.dropWhile cls, by rw [cons_append, takeWhile_append_dropWhile]⟩
  unfold first
  split
  · exact ⟨cons_ne_nil _ _, hrun _⟩
  split
  · exact ⟨cons_ne_nil _ _, hrun _⟩
  split
  · unfold number
    dsimp only
    split
    · exact ⟨cons_ne_nil _ _, hrun _⟩
    · exact ⟨cons_ne_nil _ _, hrun _⟩
  split
  · rename_i hquote
    subst hquote
    unfold string
    split
    · rename_i body hbody
      obtain ⟨-, more, rfl⟩ := stringBody_spec hbody
      exact ⟨cons_ne_nil _ _, more, by simp⟩
    · exact ⟨cons_ne_nil _ _, cs, rfl⟩
  unfold symbol
  split
  · exact ⟨cons_ne_nil _ _, hrun _⟩
  split
  · rename_i m hat
    unfold Mark.at? at hat
    have hfits := List.find?_some hat
    obtain ⟨rest, hrest⟩ := List.isPrefixOf_iff_prefix.1 hfits
    exact ⟨by cases m <;> exact cons_ne_nil _ _, rest, hrest.symm⟩
  split
  · exact ⟨cons_ne_nil _ _, cs, rfl⟩
  · exact ⟨cons_ne_nil _ _, cs, rfl⟩

end Piece

end DeferLang
