import DeferLang.Program.Format
import DeferLang.Token.Scan

/-!
# Texts that are scanned as they are written

A text spells token kinds if scanning gives these kinds and no fault, whatever
follows it, as long as the next character does not go on with its last token
(`Spells`).  Words, numbers, strings and marks spell themselves, and texts that
stay apart spell together what each of them spells.
-/

namespace DeferLang

open List

variable {c : Char} {cs text : List Char} {kind : TokenKind}

section Pieces

/-- The pieces of a text whose first `skip` characters are already taken. -/
def piecesFrom : Nat → List Char → List Piece
  | _, [] => []
  | skip + 1, _ :: cs => piecesFrom skip cs
  | 0, c :: cs =>
    let p := Piece.first c cs
    p :: piecesFrom (p.text.length - 1) cs

/-- The pieces of a text, in order. -/
def pieces (text : List Char) : List Piece :=
  piecesFrom 0 text

/-- Pieces that start at an offset, each with its own offset. -/
def placed : Nat → List Piece → List (Nat × Piece)
  | _, [] => []
  | offset, p :: ps => (offset, p) :: placed (offset + byteLength p.text) ps

theorem piecesFrom_eq (skip : Nat) (text : List Char) :
    piecesFrom skip text = pieces (text.drop skip) := by
  induction skip generalizing text with
  | zero => rfl
  | succ skip ih =>
    cases text with
    | nil => rfl
    | cons c cs => exact ih cs

/-- A text is scanned piece by piece. -/
theorem pieces_cons (c : Char) (cs : List Char) :
    pieces (c :: cs) =
      Piece.first c cs :: pieces (cs.drop ((Piece.first c cs).text.length - 1)) := by
  rw [← piecesFrom_eq]
  rfl

/-- Every piece is the first one of a text. -/
theorem exists_first_of_mem_pieces {p : Piece} (h : p ∈ pieces text) :
    ∃ c cs, p = Piece.first c cs := by
  have hfrom (text : List Char) (skip : Nat) (h : p ∈ piecesFrom skip text) :
      ∃ c cs, p = Piece.first c cs := by
    induction text generalizing skip with
    | nil => simp [piecesFrom] at h
    | cons c cs ih =>
      cases skip with
      | succ skip => exact ih skip h
      | zero =>
        rcases mem_cons.1 h with rfl | h
        · exact ⟨c, cs, rfl⟩
        · exact ih _ h
  exact hfrom text 0 h

/-- The kinds of the tokens of a text, without the end of the stream. -/
def kindsOf (text : List Char) : List TokenKind :=
  (pieces text).filterMap Piece.tokenKind?

/-- What is wrong with a text. -/
def faultsOf (text : List Char) : List ScanFault :=
  (pieces text).filterMap Piece.fault?

/-- Of a string that does not close, only the opening quote is a piece. -/
theorem Piece.text_of_unterminated (c : Char) (cs : List Char) :
    (first c cs).cls = .unterminated → (first c cs).text = ['"'] := by
  unfold first
  split
  · simp
  split
  · simp
  split
  · unfold number
    dsimp only
    split <;> simp
  split
  · unfold string
    split <;> simp
  unfold symbol
  split
  · simp
  split
  · simp
  split <;> simp

/-- Scanning that starts again behind an open string finds the pieces of the text. -/
theorem placedFrom_eq (base start skip : Nat) (text : List Char) :
    placedFrom base start skip text = placed (base + start) (piecesFrom skip text) := by
  induction text generalizing base start skip with
  | nil => cases skip <;> rfl
  | cons c cs ih =>
    cases skip with
    | succ skip => exact ih base start skip
    | zero =>
      rw [placedFrom, piecesFrom, placed]
      split
      · rename_i hopen
        rw [ih, Piece.text_of_unterminated c cs hopen]
        rfl
      · rw [ih, Nat.add_assoc]

theorem map_snd_placed (offset : Nat) (ps : List Piece) :
    (placed offset ps).map Prod.snd = ps := by
  induction ps generalizing offset with
  | nil => rfl
  | cons p ps ih => rw [placed, map_cons, ih]

theorem map_kind_tokens (text : List Char) :
    (tokens text).map Token.kind = kindsOf text ++ [.eof] := by
  rw [tokens, placedFrom_eq, map_append, map_filterMap, kindsOf, pieces,
    ← map_snd_placed (0 + 0) (piecesFrom 0 text), filterMap_map, map_snd_placed]
  simp [Piece.token?, Function.comp_def]

theorem scanErrors_eq_nil_iff (text : List Char) : scanErrors text = [] ↔ faultsOf text = [] := by
  rw [scanErrors, placedFrom_eq, faultsOf, pieces, ← map_snd_placed (0 + 0) (piecesFrom 0 text),
    filterMap_map, map_snd_placed]
  simp [Piece.error?]

end Pieces

/-- Whether a character can go on with the token that ends in another. -/
def joins (a b : Char) : Bool :=
  (isWordPart a && isWordPart b) || (b = '=' && (a = '=' || a = '!' || a = '<' || a = '>')) ||
    (a = '&' && b = '&') || (a = '/' && b = '/')

/-- Two texts that make no common token where they meet. -/
def Apart (text rest : List Char) : Prop :=
  ∀ a ∈ text.getLast?, ∀ b ∈ rest.head?, joins a b = false

/-- A text that is scanned into certain kinds, and without a fault, before every text that stays
apart from it. -/
def Spells (text : List Char) (ks : List TokenKind) : Prop :=
  ∀ rest, Apart text rest →
    kindsOf (text ++ rest) = ks ++ kindsOf rest ∧ faultsOf (text ++ rest) = faultsOf rest

section Spells

variable {text text' rest : List Char} {ks ks' : List TokenKind} {c : Char} {cs : List Char}
  {kind : TokenKind}

theorem spells_nil : Spells [] [] :=
  fun _ _ => ⟨rfl, rfl⟩

theorem Spells.append (h : Spells text ks) (h' : Spells text' ks') (hapart : Apart text text') :
    Spells (text ++ text') (ks ++ ks') := by
  intro rest hrest
  have hfirst : Apart text (text' ++ rest) := by
    cases text' with
    | nil => simpa using hrest
    | cons c cs => simpa [Apart] using hapart
  have hsecond : Apart text' rest := by
    intro a ha b hb
    refine hrest a ?_ b hb
    rw [List.getLast?_append, ha]
    rfl
  obtain ⟨hkinds, hfaults⟩ := h (text' ++ rest) hfirst
  obtain ⟨hkinds', hfaults'⟩ := h' rest hsecond
  rw [append_assoc, hkinds, hkinds', hfaults, hfaults', append_assoc]
  exact ⟨rfl, rfl⟩

/-- A whole text is scanned into what it spells. -/
theorem Spells.tokens (h : Spells text ks) :
    (tokens text).map Token.kind = ks ++ [.eof] ∧ scanErrors text = [] := by
  obtain ⟨hkinds, hfaults⟩ := h [] (by simp [Apart])
  rw [append_nil] at hkinds hfaults
  rw [map_kind_tokens, scanErrors_eq_nil_iff, hkinds, hfaults]
  exact ⟨by simp [kindsOf, pieces, piecesFrom], rfl⟩

/-- A text that is one token before every text that stays apart from it. -/
def IsToken (text : List Char) (kind : TokenKind) : Prop :=
  ∀ rest, Apart text rest → pieces (text ++ rest) = ⟨.token kind, text⟩ :: pieces rest

theorem isToken_of_first
    (h : ∀ rest, Apart (c :: cs) rest → Piece.first c (cs ++ rest) = ⟨.token kind, c :: cs⟩) :
    IsToken (c :: cs) kind := by
  intro rest hrest
  rw [cons_append, pieces_cons, h rest hrest]
  simp

/-- A text that is one token spells its kind. -/
theorem IsToken.spells (h : IsToken text kind) : Spells text [kind] := by
  intro rest hrest
  rw [kindsOf, faultsOf, h rest hrest]
  exact ⟨rfl, rfl⟩

theorem drop_length_takeWhile (p : Char → Bool) (text : List Char) :
    text.drop (text.takeWhile p).length = text.dropWhile p := by
  have hall : text.takeWhile p ++ text.dropWhile p = text := takeWhile_append_dropWhile
  have hdrop := congrArg (List.drop (text.takeWhile p).length) hall
  rw [drop_left] at hdrop
  exact hdrop.symm

/-- Blanks are one piece as far as they go. -/
theorem pieces_blank (hc : isBlank c = true) (rest : List Char) :
    pieces (c :: rest) =
      ⟨.blank, c :: rest.takeWhile isBlank⟩ :: pieces (rest.dropWhile isBlank) := by
  rw [pieces_cons, Piece.first, if_pos hc, length_cons, Nat.add_sub_cancel, drop_length_takeWhile]

/-- Blanks are not seen. -/
theorem scan_blank (hc : isBlank c = true) (rest : List Char) :
    kindsOf (c :: rest) = kindsOf rest ∧ faultsOf (c :: rest) = faultsOf rest := by
  have hrest : kindsOf rest = kindsOf (rest.dropWhile isBlank) ∧
      faultsOf rest = faultsOf (rest.dropWhile isBlank) := by
    cases rest with
    | nil => exact ⟨rfl, rfl⟩
    | cons d ds =>
      by_cases hd : isBlank d = true
      · rw [dropWhile_cons_of_pos hd, kindsOf, faultsOf, pieces_blank hd]
        exact ⟨rfl, rfl⟩
      · rw [dropWhile_cons_of_neg hd]
        exact ⟨rfl, rfl⟩
  rw [hrest.1, hrest.2, kindsOf, faultsOf, pieces_blank hc]
  exact ⟨rfl, rfl⟩

/-- Characters that go on with no token and that no token goes on with. -/
def isSolid (c : Char) : Bool :=
  isBlank c || c = '(' || c = ')' || c = '\x7b' || c = '\x7d' || c = ';' || c = ',' || c = '.' ||
    c = '~'

theorem joins_solid (hc : isSolid c = true) (a : Char) : joins a c = false ∧ joins c a = false := by
  have hcases : c = ' ' ∨ c = '\t' ∨ c = '\r' ∨ c = '\n' ∨ c = '\x0c' ∨ c = '(' ∨ c = ')' ∨
      c = '\x7b' ∨ c = '\x7d' ∨ c = ';' ∨ c = ',' ∨ c = '.' ∨ c = '~' := by
    simpa [isSolid, isBlank, or_assoc] using hc
  have hpart : isWordPart c = false := by
    rcases hcases with
      rfl | rfl | rfl | rfl | rfl | rfl | rfl | rfl | rfl | rfl | rfl | rfl | rfl <;> decide
  rcases hcases with rfl | rfl | rfl | rfl | rfl | rfl | rfl | rfl | rfl | rfl | rfl | rfl | rfl <;>
    simp [joins, hpart]

theorem apart_solid (hc : isSolid c = true) (text rest : List Char) : Apart text (c :: rest) := by
  intro a _ b hb
  obtain rfl : c = b := by simpa using hb
  exact (joins_solid hc a).1

theorem Spells.before (h : Spells text ks) (hc : isSolid c = true)
    (h' : Spells (c :: text') ks') : Spells (text ++ c :: text') (ks ++ ks') :=
  h.append h' (apart_solid hc text text')

theorem Spells.cons_blank (hc : isBlank c = true) (h : Spells text ks) : Spells (c :: text) ks := by
  intro rest hrest
  rw [cons_append]
  obtain ⟨hkinds, hfaults⟩ := scan_blank hc (text ++ rest)
  rw [hkinds, hfaults]
  refine h rest ?_
  cases text with
  | nil => simp [Apart]
  | cons d ds => simpa [Apart] using hrest

/-- A run of characters ends where one stands that does not belong to it. -/
theorem takeWhile_append_of_head {p : Char → Bool} {run rest : List Char} (hrun : run.all p = true)
    (hrest : ∀ b ∈ rest.head?, p b = false) : (run ++ rest).takeWhile p = run := by
  rw [takeWhile_append_of_pos (all_eq_true.1 hrun)]
  cases rest with
  | nil => simp
  | cons b rest => simp [hrest b rfl]

/-- What stays apart from a word or number does not go on with it. -/
theorem Apart.not_part (h : Apart (c :: cs) rest)
    (hall : (c :: cs).all isWordPart = true) : ∀ b ∈ rest.head?, isWordPart b = false := by
  intro b hb
  have hne := cons_ne_nil c cs
  have hpart := all_eq_true.1 hall _ (getLast_mem hne)
  have hjoins := h _ (List.getLast?_eq_some_getLast hne) b hb
  simp only [joins, hpart, Bool.true_and, Bool.or_eq_false_iff] at hjoins
  exact hjoins.1.1.1

theorem isBlank_of_isWordPart (h : isWordPart c = true) : isBlank c = false := by
  refine Bool.eq_false_iff.2 fun hblank => ?_
  have hcases : c = ' ' ∨ c = '\t' ∨ c = '\r' ∨ c = '\n' ∨ c = '\x0c' := by
    simpa [isBlank, or_assoc] using hblank
  rcases hcases with rfl | rfl | rfl | rfl | rfl <;> revert h <;> decide

theorem isWordStart_of_isDigit (h : isDigit c = true) : isWordStart c = false := by
  have hnine : c ≤ '9' := by
    simpa [isDigit] using (Bool.and_eq_true_iff.1 h).2
  have hlower : ¬ 'a' ≤ c := fun hle => absurd (Char.le_trans hle hnine) (by decide)
  have hupper : ¬ 'A' ≤ c := fun hle => absurd (Char.le_trans hle hnine) (by decide)
  have hunderscore : c ≠ '_' := by
    rintro rfl
    exact absurd hnine (by decide)
  simp [isWordStart, hlower, hupper, hunderscore]

/-- A word is one token. -/
theorem isToken_word (hc : isWordStart c = true)
    (hcs : cs.all isWordPart = true) : IsToken (c :: cs) (wordKind (c :: cs)) := by
  refine isToken_of_first fun rest hrest => ?_
  have hpart : isWordPart c = true := by
    rw [isWordPart, hc, Bool.true_or]
  have hall : (c :: cs).all isWordPart = true := by
    rw [all_cons, hpart, hcs]
    rfl
  rw [Piece.first, isBlank_of_isWordPart hpart, hc,
    takeWhile_append_of_head hcs (hrest.not_part hall)]
  rfl

theorem isToken_keyword (word : Keyword) : IsToken word.text.toList (.keyword word) := by
  have hword : ∃ c cs, word.text.toList = c :: cs ∧ isWordStart c = true ∧
      cs.all isWordPart = true ∧ wordKind (c :: cs) = .keyword word := by
    cases word <;> exact ⟨_, _, rfl, by decide, by decide, by decide⟩
  obtain ⟨c, cs, hchars, hc, hcs, hkind⟩ := hword
  rw [hchars, ← hkind]
  exact isToken_word hc hcs

theorem spells_keyword (word : Keyword) : Spells word.text.toList [.keyword word] :=
  (isToken_keyword word).spells

/-- A mark of one character that a character `d` makes longer. -/
theorem isToken_extendable {d : Char} {m long : Mark} (hchars : m.chars = [c])
    (hfirst : ∀ rest, Piece.first c rest = Piece.symbol c rest) (hslash : c ≠ '/')
    (hjoins : joins c d = true) (hend : Mark.at? [c] = some m)
    (hat : ∀ b rest, Mark.at? (c :: b :: rest) = bif d == b && true then some long else some m) :
    IsToken m.chars (.mark m) := by
  rw [hchars]
  refine isToken_of_first fun rest hrest => ?_
  have hshort : Mark.at? (c :: rest) = some m := by
    cases rest with
    | nil => exact hend
    | cons b rest =>
      have hne : d ≠ b := by
        rintro rfl
        exact absurd (hrest c rfl d rfl) (by rw [hjoins]; decide)
      rw [hat, beq_false_of_ne hne]
      rfl
  rw [nil_append, hfirst, Piece.symbol, if_neg fun h => hslash h.1, hshort, ← hchars]

/-- A mark is one token, unless the next character makes a longer mark or a comment of it. -/
theorem isToken_mark (m : Mark) : IsToken m.chars (.mark m) := by
  cases m with
  | assign | less | greater | amp =>
    exact isToken_extendable rfl (fun _ => rfl) nofun rfl rfl fun _ _ => rfl
  | slash =>
    refine isToken_of_first fun rest hrest => ?_
    have hcomment : ¬('/' = '/' ∧ rest.head? = some '/') := fun h =>
      absurd (hrest '/' rfl '/' h.2) (by decide)
    change (if '/' = '/' ∧ rest.head? = some '/' then _ else _) = _
    rw [if_neg hcomment]
    rfl
  | _ => exact isToken_of_first fun _ _ => rfl

theorem spells_mark (m : Mark) : Spells m.chars [.mark m] :=
  (isToken_mark m).spells

theorem Spells.cons_mark {m : Mark} (hm : m.chars = [c]) (hc : isSolid c = true)
    (h : Spells text ks) : Spells (c :: text) (.mark m :: ks) := by
  have hmark := spells_mark m
  rw [hm] at hmark
  refine hmark.append h fun a ha b _ => ?_
  obtain rfl : c = a := Option.some.inj ha
  exact (joins_solid hc b).2

/-- Digits are one token if their number fits. -/
theorem isToken_digits (hall : (c :: cs).all isDigit = true)
    (hvalue : digitsValue (c :: cs) < UInt64.size) :
    IsToken (c :: cs) (.int (digitsValue (c :: cs))) := by
  refine isToken_of_first fun rest hrest => ?_
  obtain ⟨hc, hcs⟩ := Bool.and_eq_true_iff.1 (all_cons.symm.trans hall)
  have hparts : (c :: cs).all isWordPart = true := by
    refine all_eq_true.2 fun a ha => ?_
    rw [isWordPart, all_eq_true.1 hall a ha, Bool.or_true]
  have hpart : isWordPart c = true := all_eq_true.1 hparts c mem_cons_self
  have hend (b : Char) (hb : b ∈ rest.head?) : isDigit b = false :=
    (Bool.or_eq_false_iff.1 (hrest.not_part hparts b hb)).2
  rw [Piece.first, isBlank_of_isWordPart hpart, isWordStart_of_isDigit hc, hc,
    takeWhile_append_of_head hcs hend]
  change Piece.number (c :: cs) = _
  rw [Piece.number, if_pos hvalue]

/-- A number spells itself in decimal. -/
theorem spells_int {value : Nat} (h : value < UInt64.size) :
    Spells (Nat.repr value).toList [.int value] := by
  have hchars : (Nat.repr value).toList = Nat.toDigits 10 value := by
    rw [Nat.repr_eq_ofList_toDigits, String.toList_ofList]
  have hvalue : digitsValue (Nat.toDigits 10 value) = value := Nat.ofDigitChars_ten_toDigits
  have hdigits : (Nat.toDigits 10 value).all isDigit = true := by
    refine all_eq_true.2 fun a ha => ?_
    exact Nat.isDigit_of_mem_toDigits (by decide) (by decide) ha
  rw [hchars]
  obtain ⟨c, cs, hcons⟩ := exists_cons_of_ne_nil (@Nat.toDigits_ne_nil value 10)
  rw [hcons] at hvalue hdigits ⊢
  have hspells := (isToken_digits hdigits (hvalue.symm ▸ h)).spells
  rwa [hvalue] at hspells

end Spells

section Strings

/-- What can stand between the quotes of a string literal. -/
inductive LiteralBody : List Char → Prop where
  | nil : LiteralBody []
  | plain {c : Char} {cs : List Char} (hquote : c ≠ '"') (hline : c ≠ '\n') (hslash : c ≠ '\\')
      (h : LiteralBody cs) : LiteralBody (c :: cs)
  | escaped {d : Char} {ds : List Char} (hline : d ≠ '\n') (h : LiteralBody ds) :
      LiteralBody ('\\' :: d :: ds)

theorem stringBody_quote (cs : List Char) : stringBody ('"' :: cs) = some [] := by
  cases cs <;> simp [stringBody]

theorem stringBody_plain (hquote : c ≠ '"') (hline : c ≠ '\n') (hslash : c ≠ '\\')
    (cs : List Char) : stringBody (c :: cs) = (stringBody cs).map (c :: ·) := by
  cases cs <;> simp [stringBody, hquote, hline, hslash]

theorem stringBody_escaped {d : Char} (hline : d ≠ '\n') (ds : List Char) :
    stringBody ('\\' :: d :: ds) = (stringBody ds).map ('\\' :: d :: ·) := by
  simp [stringBody, hline]

/-- A literal stands before its closing quote. -/
theorem stringBody_spec {body : List Char} (h : stringBody text = some body) :
    LiteralBody body ∧ ∃ more, text = body ++ '"' :: more := by
  induction text using stringBody.induct generalizing body with
  | case1 => simp [stringBody] at h
  | case2 ds =>
    obtain rfl : [] = body := Option.some.inj ((stringBody_quote ds).symm.trans h)
    exact ⟨.nil, ds, rfl⟩
  | case3 ds _ => cases ds <;> simp [stringBody] at h
  | case4 _ _ | case5 ds _ _ => simp [stringBody] at h
  | case6 d ds hline _ _ ih =>
    rw [stringBody_escaped hline, Option.map_eq_some_iff] at h
    obtain ⟨body', hbody, rfl⟩ := h
    obtain ⟨hliteral, more, rfl⟩ := ih hbody
    exact ⟨.escaped hline hliteral, more, rfl⟩
  | case7 d ds hquote hline hslash ih =>
    rw [stringBody_plain hquote hline hslash, Option.map_eq_some_iff] at h
    obtain ⟨body', hbody, rfl⟩ := h
    obtain ⟨hliteral, more, rfl⟩ := ih hbody
    exact ⟨.plain hquote hline hslash hliteral, more, rfl⟩

namespace LiteralBody

variable {body : List Char}

theorem head?_ne_quote (h : LiteralBody body) : body.head? ≠ some '"' := by
  cases h with
  | nil => simp
  | plain hquote => simpa using hquote
  | escaped => simp

theorem stringBody_append (h : LiteralBody body) (rest : List Char) :
    stringBody (body ++ '"' :: rest) = some body := by
  induction h with
  | nil => exact stringBody_quote rest
  | plain hquote hline hslash h ih =>
    rw [cons_append, stringBody_plain hquote hline hslash, ih]
    rfl
  | escaped hline h ih =>
    rw [cons_append, cons_append, stringBody_escaped hline, ih]
    rfl

theorem unescapeQuotes_cons (h : ¬(c = '\\' ∧ cs.head? = some '"')) :
    unescapeQuotes (c :: cs) = c :: unescapeQuotes cs := by
  cases cs with
  | nil => simp [unescapeQuotes]
  | cons d ds =>
    rw [List.head?_cons, Option.some.injEq] at h
    rw [unescapeQuotes, if_neg h]

/-- The quotes of a literal are escaped, so escaping them again gives the literal back. -/
theorem escapeQuotes_unescapeQuotes (h : LiteralBody body) :
    escapeQuotes (unescapeQuotes body) = body := by
  induction h with
  | nil => rfl
  | @plain c cs hquote hline hslash h ih =>
    rw [unescapeQuotes_cons fun hboth => hslash hboth.1, escapeQuotes, if_neg hquote, ih]
  | @escaped d ds hline h ih =>
    by_cases hquote : d = '"'
    · subst hquote
      simp [unescapeQuotes, escapeQuotes, ih]
    · have hfirst : unescapeQuotes ('\\' :: d :: ds) = '\\' :: unescapeQuotes (d :: ds) :=
        unescapeQuotes_cons fun hboth => hquote (Option.some.inj hboth.2)
      have hsecond : unescapeQuotes (d :: ds) = d :: unescapeQuotes ds :=
        unescapeQuotes_cons fun hboth => h.head?_ne_quote hboth.2
      simp [hfirst, hsecond, escapeQuotes, hquote, ih]

end LiteralBody

end Strings

/-- Kinds that a text can spell: names are no keywords, numbers fit, and strings are the values
of literals. -/
def TokenKind.Written : TokenKind → Prop
  | .ident name => ∃ c cs, name.toList = c :: cs ∧ isWordStart c = true ∧
      cs.all isWordPart = true ∧ wordKind (c :: cs) = .ident name
  | .int value => value < UInt64.size
  | .str value => ∃ body, LiteralBody body ∧ value = String.ofList (unescapeQuotes body)
  | _ => True

theorem spells_ident {name : String} (h : (TokenKind.ident name).Written) :
    Spells name.toList [.ident name] := by
  obtain ⟨c, cs, hchars, hc, hcs, hkind⟩ := h
  rw [hchars, ← hkind]
  exact (isToken_word hc hcs).spells

/-- A literal that closes is one token. -/
theorem isToken_literal {body : List Char} (h : LiteralBody body) :
    IsToken ('"' :: (body ++ ['"'])) (.str (String.ofList (unescapeQuotes body))) := by
  refine isToken_of_first fun rest _ => ?_
  change Piece.string (body ++ ['"'] ++ rest) = _
  rw [append_assoc, Piece.string, singleton_append, h.stringBody_append]
  rfl

theorem spells_str {value : String} (h : (TokenKind.str value).Written) :
    Spells ('"' :: (escapeQuotes value.toList ++ ['"'])) [.str value] := by
  obtain ⟨body, hbody, rfl⟩ := h
  rw [String.toList_ofList, hbody.escapeQuotes_unescapeQuotes]
  exact (isToken_literal hbody).spells

theorem written_wordKind (hc : isWordStart c = true)
    (hcs : cs.all isWordPart = true) : (wordKind (c :: cs)).Written := by
  cases hword : Keyword.ofText? (String.ofList (c :: cs)) with
  | some word =>
    have hkind : wordKind (c :: cs) = .keyword word := by
      rw [wordKind, hword]
    rw [hkind]
    exact trivial
  | none =>
    have hkind : wordKind (c :: cs) = .ident (String.ofList (c :: cs)) := by
      rw [wordKind, hword]
    rw [hkind]
    exact ⟨c, cs, String.toList_ofList, hc, hcs, hkind⟩

theorem written_number (digits : List Char)
    (h : (Piece.number digits).tokenKind? = some kind) : kind.Written := by
  unfold Piece.number at h
  dsimp only at h
  split at h
  · obtain rfl := Option.some.inj h
    assumption
  · obtain rfl := Option.some.inj h
    exact (by decide : 0 < UInt64.size)

theorem written_string (text : List Char)
    (h : (Piece.string text).tokenKind? = some kind) : kind.Written := by
  unfold Piece.string at h
  split at h
  · rename_i body hbody
    obtain rfl := Option.some.inj h
    exact ⟨body, (stringBody_spec hbody).1, rfl⟩
  · contradiction

theorem written_symbol (c : Char) (cs : List Char)
    (h : (Piece.symbol c cs).tokenKind? = some kind) : kind.Written := by
  unfold Piece.symbol at h
  split at h
  · contradiction
  · split at h
    · obtain rfl := Option.some.inj h
      exact trivial
    · split at h <;> contradiction

theorem written_first
    (h : (Piece.first c cs).tokenKind? = some kind) : kind.Written := by
  unfold Piece.first at h
  split at h
  · contradiction
  · split at h
    · rename_i hc
      obtain rfl := Option.some.inj h
      exact written_wordKind hc all_takeWhile
    · split at h
      · exact written_number _ h
      · split at h
        · exact written_string _ h
        · exact written_symbol _ _ h

/-- What is scanned can be spelled. -/
theorem written_of_mem_kindsOf (h : kind ∈ kindsOf text) :
    kind.Written := by
  obtain ⟨p, hp, hkind⟩ := mem_filterMap.1 h
  obtain ⟨c, cs, rfl⟩ := exists_first_of_mem_pieces hp
  exact written_first hkind

end DeferLang
