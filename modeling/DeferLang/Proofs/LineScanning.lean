import DeferLang.Proofs.Places

/-!
# Lines are scanned apart

No token and no fault goes past the end of its line.  A text is therefore scanned
as its part before a newline and its part behind it are scanned on their own: what
stands behind the newline is the same, only moved by the bytes and lines before it
(`scan_newline`).  A string that does not close, or anything else that is wrong with
a line, does not show on another line.
-/

namespace DeferLang

open List

section Pieces

variable {c : Char} {a : List Char} (b : List Char)

theorem takeWhile_append_newline {p : Char → Bool} (hline : p '\n' = false) :
    (a ++ '\n' :: b).takeWhile p = a.takeWhile p := by
  induction a with
  | nil => simp [hline]
  | cons c cs ih =>
    by_cases hc : p c = true
    · simp [hc, ih]
    · simp [hc]

theorem isPrefixOf_append_newline {w : List Char} (hline : '\n' ∉ w) :
    w.isPrefixOf (a ++ '\n' :: b) = w.isPrefixOf a := by
  induction w generalizing a with
  | nil => cases a <;> rfl
  | cons d ds ih =>
    rw [mem_cons, not_or] at hline
    cases a with
    | nil =>
      have hd : (d == '\n') = false := by simpa using Ne.symm hline.1
      simp [List.isPrefixOf, hd]
    | cons c cs => simp [List.isPrefixOf, ih hline.2]

/-- A string literal has to close on its line. -/
theorem stringBody_append_newline : stringBody (a ++ '\n' :: b) = stringBody a := by
  induction a using stringBody.induct with
  | case1 => cases b <;> simp [stringBody]
  | case2 cs => cases cs <;> simp [stringBody]
  | case3 cs => cases cs <;> simp [stringBody]
  | case4 | case5 cs => simp [stringBody]
  | case6 d ds hline _ _ ih =>
    rw [cons_append, cons_append, stringBody_escaped hline, stringBody_escaped hline, ih]
  | case7 d ds hquote hline hslash ih =>
    rw [cons_append, stringBody_plain hquote hline hslash, stringBody_plain hquote hline hslash, ih]

theorem at_append_newline : Mark.at? (a ++ '\n' :: b) = Mark.at? a := by
  have hline (m : Mark) : '\n' ∉ m.chars := by cases m <;> decide
  unfold Mark.at?
  congr 1
  funext m
  exact isPrefixOf_append_newline b (hline m)

theorem symbol_append_newline : Piece.symbol c (a ++ '\n' :: b) = Piece.symbol c a := by
  have hhead : (a ++ '\n' :: b).head? = some '/' ↔ a.head? = some '/' := by
    cases a <;> simp
  have hmark : Mark.at? (c :: (a ++ '\n' :: b)) = Mark.at? (c :: a) :=
    at_append_newline (a := c :: a) b
  unfold Piece.symbol
  rw [takeWhile_append_newline b (by decide), hmark]
  simp only [hhead]

/-- A piece that is not blank ends on its line. -/
theorem first_append_newline (hblank : isBlank c = false) :
    Piece.first c (a ++ '\n' :: b) = Piece.first c a := by
  have hword : isWordPart '\n' = false := by decide
  have hdigit : isDigit '\n' = false := by decide
  unfold Piece.first Piece.string
  rw [hblank, takeWhile_append_newline b hword, takeWhile_append_newline b hdigit,
    stringBody_append_newline, symbol_append_newline]
  rfl

end Pieces

section Scanning

/-- What scanning makes of a text that starts at an offset. -/
def scanFrom (offset : Nat) (text : List Char) : List Token × List ScanError :=
  (tokensFrom offset (pieces text), scanErrorsFrom offset (pieces text))

/-- Blanks are passed over one by one. -/
theorem scanFrom_blank {c : Char} (hc : isBlank c = true) (offset : Nat) (text : List Char) :
    scanFrom offset (c :: text) = scanFrom (offset + c.utf8Size) text := by
  have hrun {c : Char} (hc : isBlank c = true) (offset : Nat) (text : List Char) :
      scanFrom offset (c :: text) =
        scanFrom (offset + byteLength (c :: text.takeWhile isBlank)) (text.dropWhile isBlank) := by
    rw [scanFrom, pieces_blank hc]
    rfl
  rw [hrun hc]
  cases text with
  | nil => rfl
  | cons d ds =>
    by_cases hd : isBlank d = true
    · rw [hrun hd, takeWhile_cons_of_pos hd, dropWhile_cons_of_pos hd, byteLength, Nat.add_assoc]
    · rw [takeWhile_cons_of_neg hd, dropWhile_cons_of_neg hd]
      rfl

theorem tokensFrom_ne_nil (offset : Nat) (ps : List Piece) : tokensFrom offset ps ≠ [] := by
  induction ps generalizing offset with
  | nil => exact cons_ne_nil _ _
  | cons p ps ih => exact append_ne_nil_of_right_ne_nil _ (ih _)

/-- Both sides of a newline are scanned on their own. -/
theorem scanFrom_append_newline (offset : Nat) (a b : List Char) :
    scanFrom offset (a ++ '\n' :: b) =
      ((scanFrom offset a).1.dropLast ++ (scanFrom (offset + byteLength a + 1) b).1,
        (scanFrom offset a).2 ++ (scanFrom (offset + byteLength a + 1) b).2) := by
  induction hlength : a.length using Nat.strongRecOn generalizing a offset with
  | ind n ih =>
    cases a with
    | nil =>
      rw [nil_append, scanFrom_blank (by decide)]
      rfl
    | cons c cs =>
      by_cases hblank : isBlank c = true
      · -- a blank in front can be left out, whether or not it is one piece with the newline
        rw [cons_append, scanFrom_blank hblank, scanFrom_blank hblank,
          ih cs.length (by simp [← hlength]) (offset + c.utf8Size) cs rfl, byteLength]
        simp only [Nat.add_assoc]
      · have hfirst := first_append_newline (a := cs) b (eq_false_of_ne_true hblank)
        obtain ⟨hne, rest, hsplit⟩ := Piece.exists_rest_first c cs
        have hpieces : pieces (c :: (cs ++ '\n' :: b)) =
            Piece.first c cs :: pieces (rest ++ '\n' :: b) := by
          rw [← hfirst]
          refine pieces_of_split ?_
          rw [hfirst, ← append_assoc, ← hsplit, cons_append]
        have hshorter : rest.length < n := by
          have hpos : 0 < (Piece.first c cs).text.length := length_pos_iff.2 hne
          have hlengths := congrArg List.length hsplit
          rw [length_append] at hlengths
          omega
        have hrest := ih rest.length hshorter
          (offset + byteLength (Piece.first c cs).text) rest rfl
        have hoffset : offset + byteLength (Piece.first c cs).text + byteLength rest =
            offset + byteLength (c :: cs) := by
          rw [hsplit, byteLength_append, Nat.add_assoc]
        rw [hoffset] at hrest
        simp only [scanFrom, Prod.mk.injEq] at hrest ⊢
        rw [cons_append, hpieces, pieces_of_split hsplit]
        simp only [tokensFrom, scanErrorsFrom, hrest.1, hrest.2, append_assoc,
          dropLast_append_of_ne_nil (tokensFrom_ne_nil _ _)]
        exact ⟨trivial, trivial⟩

end Scanning

section Moving

/-- A span, further on in the text. -/
def Span.moved (bytes : Nat) (s : Span) : Span :=
  ⟨s.offset + bytes, s.length⟩

def Token.moved (bytes : Nat) (t : Token) : Token :=
  { t with span := t.span.moved bytes }

def ScanError.moved (bytes : Nat) (e : ScanError) : ScanError :=
  { e with span := e.span.moved bytes }

/-- A position, some lines further down.  The column stays. -/
def Position.moved (lines bytes : Nat) (p : Position) : Position :=
  { p with line := p.line + lines, offset := p.offset + bytes }

def Anchor.moved (lines bytes : Nat) (a : Anchor) : Anchor :=
  { a with span := a.span.moved bytes, position := a.position.moved lines bytes }

/-- A diagnostic about a text that stands further down. -/
def Diagnostic.moved (lines bytes : Nat) (d : Diagnostic) : Diagnostic :=
  { d with anchors := d.anchors.map (Anchor.moved lines bytes) }

theorem tokensFrom_add (offset bytes : Nat) (ps : List Piece) :
    tokensFrom (offset + bytes) ps = (tokensFrom offset ps).map (Token.moved bytes) := by
  induction ps generalizing offset with
  | nil => rfl
  | cons p ps ih =>
    rw [tokensFrom, tokensFrom, map_append, Nat.add_right_comm, ih]
    congr 1
    unfold Piece.token?
    cases p.tokenKind? <;> rfl

theorem scanErrorsFrom_add (offset bytes : Nat) (ps : List Piece) :
    scanErrorsFrom (offset + bytes) ps =
      (scanErrorsFrom offset ps).map (ScanError.moved bytes) := by
  induction ps generalizing offset with
  | nil => rfl
  | cons p ps ih =>
    rw [scanErrorsFrom, scanErrorsFrom, map_append, Nat.add_right_comm, ih]
    congr 1
    unfold Piece.error?
    cases p.fault? <;> rfl

theorem Span.Marks.moved {text word : List Char} {span : Span} (h : span.Marks text word)
    (front : List Char) : (span.moved (byteLength front)).Marks (front ++ text) word := by
  obtain ⟨before, after, rfl, rfl⟩ := h
  exact ⟨front ++ before, after, by simp, by simp [Span.moved, Nat.add_comm]⟩

variable (id : Nat) (path : String) (a b : List Char)

theorem position_append {offset : Nat} (h : offset ≤ byteLength a) :
    (Source.ofText id path (a ++ b)).position offset =
      (Source.ofText id path a).position offset := by
  have hle : offset ≤ byteLength (a ++ b) := by
    rw [byteLength_append]
    exact Nat.le_add_right_of_le h
  simp only [Source.position_eq_passed, Source.ofText, Nat.min_eq_left h, Nat.min_eq_left hle,
    takeWhile_lineHeads_append b h]

theorem position_behind_newline (offset : Nat) :
    (Source.ofText id path (a ++ '\n' :: b)).position (offset + (byteLength a + 1)) =
      ((Source.ofText id path b).position offset).moved (a.count '\n' + 1) (byteLength a + 1) := by
  have hmin : min (offset + (byteLength a + 1)) (byteLength (a ++ '\n' :: b)) =
      min offset (byteLength b) + (byteLength a + 1) := by
    have hsize : Char.utf8Size '\n' = 1 := rfl
    rw [byteLength_append, byteLength, hsize]
    omega
  generalize hclamped : min offset (byteLength b) = clamped at hmin
  -- every line of the first part is passed, then the lines of the second one by one
  have hpassed : (lineHeads (a ++ '\n' :: b)).takeWhile (· ≤ clamped + (byteLength a + 1)) =
      lineHeads a ++ ((lineHeads b).takeWhile (· ≤ clamped)).map (· + (byteLength a + 1)) := by
    rw [lineHeads_newline, takeWhile_append_of_pos, takeWhile_map]
    · congr 3
      funext head
      simp
    · intro head hmem
      have hle := le_of_mem_lineHeads hmem
      simp only [decide_eq_true_eq]
      omega
  obtain ⟨heads, hheads⟩ : ∃ heads, (lineHeads b).takeWhile (· ≤ clamped) = 0 :: heads :=
    ⟨_, takeWhile_cons_of_pos (by simp)⟩
  have hlast : (lineHeads a ++ (0 :: heads).map (· + (byteLength a + 1))).getLastD 0 =
      (0 :: heads).getLastD 0 + (byteLength a + 1) := by
    rw [getLastD_eq_getLast?, List.getLast?_append_of_ne_nil _ (by simp), List.getLast?_map,
      getLastD_eq_getLast?, List.getLast?_cons]
    rfl
  simp only [Source.position_eq_passed, Source.ofText, Position.moved, hmin, hclamped, hpassed,
    hheads, hlast, length_append, length_map, length_lineHeads, Position.mk.injEq, true_and,
    and_true]
  omega

end Moving

namespace Source

/-- The tokens of a source, each with its position. -/
def placedTokens (s : Source) : List (Token × Position) :=
  (tokens s.text).map fun t => (t, s.position t.span.offset)

/-- What scanning a source reports. -/
def scanDiagnostics (s : Source) : Diagnostics :=
  (scanErrors s.text).map (ScanError.toDiagnostic s)

end Source

section Lines

variable (id : Nat) (path : String) (a b : List Char)

/-- A token with its position, further down. -/
def Token.placedBelow (lines bytes : Nat) (t : Token × Position) : Token × Position :=
  (t.1.moved bytes, t.2.moved lines bytes)

/-- Tokens begin in their text. -/
theorem offset_le_of_mem_tokens {text : List Char} {t : Token} (h : t ∈ tokens text) :
    t.span.offset ≤ byteLength text := by
  have hfrom {text : List Char} {ps : List Piece} (hscan : Scans text ps) (offset : Nat) :
      ∀ t ∈ tokensFrom offset ps, t.span.offset ≤ offset + byteLength text := by
    induction hscan generalizing offset with
    | nil => simp [tokensFrom]
    | @cons c cs rest ps hsplit _ ih =>
      intro t ht
      rcases mem_append.1 ht with ht | ht
      · obtain ⟨kind, -, rfl⟩ := Option.map_eq_some_iff.1 (Option.mem_toList.1 ht)
        exact Nat.le_add_right _ _
      · have hle := ih _ t ht
        rwa [Nat.add_assoc, ← byteLength_append, ← hsplit] at hle
  simpa using hfrom (scans_pieces text) 0 t (tokens_eq text ▸ h)

theorem toDiagnostic_append {e : ScanError} (he : e ∈ scanErrors a) :
    e.toDiagnostic (Source.ofText id path (a ++ b)) = e.toDiagnostic (Source.ofText id path a) := by
  have hshows := shows_scanErrors he
  obtain ⟨word, -, hmarks⟩ := hshows.exists_marks
  have hanchor : Anchor.ofSpan (Source.ofText id path (a ++ b)) e.span =
      Anchor.ofSpan (Source.ofText id path a) e.span := by
    rw [Anchor.ofSpan_of_marks (hmarks.append b), Anchor.ofSpan_of_marks hmarks,
      position_append id path a b hshows.start.le]
  rw [ScanError.toDiagnostic, hanchor]
  rfl

theorem toDiagnostic_behind_newline {e : ScanError} (he : e ∈ scanErrors b) :
    (e.moved (byteLength a + 1)).toDiagnostic (Source.ofText id path (a ++ '\n' :: b)) =
      (e.toDiagnostic (Source.ofText id path b)).moved (a.count '\n' + 1) (byteLength a + 1) := by
  obtain ⟨word, -, hmarks⟩ := (shows_scanErrors he).exists_marks
  have hbehind : (e.span.moved (byteLength a + 1)).Marks (a ++ '\n' :: b) word := by
    have hmoved := hmarks.moved (a ++ ['\n'])
    rwa [byteLength_append, append_assoc] at hmoved
  have hanchor : Anchor.ofSpan (Source.ofText id path (a ++ '\n' :: b))
      (e.span.moved (byteLength a + 1)) =
      (Anchor.ofSpan (Source.ofText id path b) e.span).moved (a.count '\n' + 1)
        (byteLength a + 1) := by
    rw [Anchor.ofSpan_of_marks hbehind, Anchor.ofSpan_of_marks hmarks, Anchor.moved,
      ← position_behind_newline]
    rfl
  rw [ScanError.toDiagnostic, ScanError.moved, hanchor]
  rfl

theorem placedTokens_newline :
    (Source.ofText id path (a ++ '\n' :: b)).placedTokens =
      (Source.ofText id path a).placedTokens.dropLast ++
        (Source.ofText id path b).placedTokens.map
          (Token.placedBelow (a.count '\n' + 1) (byteLength a + 1)) := by
  have htokens : tokens (a ++ '\n' :: b) =
      (tokens a).dropLast ++ (tokens b).map (Token.moved (byteLength a + 1)) := by
    have hscan := congrArg Prod.fst (scanFrom_append_newline 0 a b)
    rwa [Nat.add_assoc, scanFrom, scanFrom, scanFrom, tokensFrom_add, ← tokens_eq, ← tokens_eq,
      ← tokens_eq] at hscan
  dsimp only [Source.placedTokens, Source.ofText]
  rw [htokens, map_append, map_dropLast, map_map, map_map]
  congr 2
  · refine map_congr_left fun t ht => ?_
    exact congrArg (Prod.mk t) (position_append id path a _ (offset_le_of_mem_tokens ht))
  · funext t
    exact congrArg (Prod.mk _) (position_behind_newline id path a b t.span.offset)

theorem scanDiagnostics_newline :
    (Source.ofText id path (a ++ '\n' :: b)).scanDiagnostics =
      (Source.ofText id path a).scanDiagnostics ++
        (Source.ofText id path b).scanDiagnostics.map
          (Diagnostic.moved (a.count '\n' + 1) (byteLength a + 1)) := by
  have herrors : scanErrors (a ++ '\n' :: b) =
      scanErrors a ++ (scanErrors b).map (ScanError.moved (byteLength a + 1)) := by
    have hscan := congrArg Prod.snd (scanFrom_append_newline 0 a b)
    rwa [Nat.add_assoc, scanFrom, scanFrom, scanFrom, scanErrorsFrom_add, ← scanErrors_eq,
      ← scanErrors_eq, ← scanErrors_eq] at hscan
  dsimp only [Source.scanDiagnostics, Source.ofText]
  rw [herrors, map_append, map_map, map_map]
  congr 1
  · exact map_congr_left fun e he => toDiagnostic_append id path a _ he
  · exact map_congr_left fun e he => toDiagnostic_behind_newline id path a b he

theorem placedBelow_placedBelow (line : List Char) (t : Token × Position) :
    Token.placedBelow (a.count '\n' + 1) (byteLength a + 1)
        (Token.placedBelow (line.count '\n' + 1) (byteLength line + 1) t) =
      Token.placedBelow ((a ++ '\n' :: line).count '\n' + 1)
        (byteLength (a ++ '\n' :: line) + 1) t := by
  have hsize : Char.utf8Size '\n' = 1 := rfl
  have hlines : (a ++ '\n' :: line).count '\n' + 1 =
      (line.count '\n' + 1) + (a.count '\n' + 1) := by
    rw [count_append, count_cons_self]
    omega
  have hbytes : byteLength (a ++ '\n' :: line) + 1 =
      (byteLength line + 1) + (byteLength a + 1) := by
    rw [byteLength_append, byteLength, hsize]
    omega
  rw [hlines, hbytes]
  simp only [Token.placedBelow, Token.moved, Span.moved, Position.moved, Nat.add_assoc]

/-- A text with a newline in it is scanned line by line: to the tokens before the newline, less the
end of the stream, and to those behind it, moved down by the lines and bytes before them, with the
same kinds, lexemes and columns.  So are the diagnostics.  Whatever `line` stands between two
texts, their tokens are the same, and those of the second are only moved. -/
theorem scan_newline :
    let source : List Char → Source := Source.ofText id path
    let below (front : List Char) := Token.placedBelow (front.count '\n' + 1) (byteLength front + 1)
    (source (a ++ '\n' :: b)).placedTokens =
        (source a).placedTokens.dropLast ++ (source b).placedTokens.map (below a) ∧
      (source (a ++ '\n' :: b)).scanDiagnostics =
        (source a).scanDiagnostics ++
          (source b).scanDiagnostics.map
            (Diagnostic.moved (a.count '\n' + 1) (byteLength a + 1)) ∧
      ∀ line : List Char, (source (a ++ '\n' :: (line ++ '\n' :: b))).placedTokens =
        (source a).placedTokens.dropLast ++ (source line).placedTokens.dropLast.map (below a) ++
          (source b).placedTokens.map (below (a ++ '\n' :: line)) := by
  refine ⟨placedTokens_newline id path a b, scanDiagnostics_newline id path a b, fun line => ?_⟩
  rw [placedTokens_newline, placedTokens_newline, List.map_append, List.map_map, List.append_assoc]
  congr 3
  funext t
  exact placedBelow_placedBelow a line t

end Lines

end DeferLang
