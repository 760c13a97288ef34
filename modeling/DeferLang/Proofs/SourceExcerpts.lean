import DeferLang.Diagnostic.Render
import DeferLang.Proofs.LinePositions

/-!
# Excerpts of a source

A diagnostic shows the lines around its place, each behind its number, with carets
under the place.  The number of lines around it counts modulo 2 ^ 32
(`render_shows_window`), and the carets stand under the place as long as the number
of the line has four digits (`carets_under_lexeme`).
-/

namespace DeferLang

open List

namespace Diagnostic

/-! ### The lines that are shown -/

/-- The lines of a file that are within a number of lines of one of them, from the first on. -/
def window (s : Source) (line around : Nat) : List Nat :=
  (List.range' (max 1 (line - around)) (line + around + 1 - max 1 (line - around))).filter
    fun n => (s.lineText n).isSome

/-- What is shown of a line: its numbered text, and carets if it is the line of the anchor. -/
def shownLine (s : Source) (a : Anchor) (n : Nat) : String :=
  let line := (s.lineText n).getD []
  numberedLine n line ++ if n = a.position.line then caretLine a line else ""

/-- The first line of a diagnostic that has a place. -/
def heading (d : Diagnostic) (path : String) (p : Position) : String :=
  path ++ ":" ++ (Nat.repr p.line ++ ":" ++ Nat.repr p.column ++ ": ") ++
    (d.severity.name ++ ": " ++ d.summary ++ "\n")

/-- Behind a line that does not exist there is none. -/
theorem lineText_eq_none_of_le {s : Source} {n m : Nat} (h : s.lineText (n + 1) = none)
    (hle : n ≤ m) : s.lineText (m + 1) = none := by
  rw [s.lineText_eq, Option.map_eq_none_iff, List.getElem?_eq_none_iff] at h ⊢
  exact Nat.le_trans h hle

theorem excerptFrom_eq (s : Source) (a : Anchor) (count n : Nat) :
    excerptFrom s a count (n + 1) =
      String.join (((List.range' (n + 1) count).filter fun n => (s.lineText n).isSome).map
        (shownLine s a)) := by
  induction count generalizing n with
  | zero => rfl
  | succ count ih =>
    rw [excerptFrom]
    cases hline : s.lineText (n + 1) with
    | none =>
      have hnone : (List.range' (n + 1) (count + 1)).filter
          (fun n => (s.lineText n).isSome) = [] := by
        refine filter_eq_nil_iff.2 fun m hm => ?_
        obtain ⟨hle, -⟩ := mem_range'_1.1 hm
        obtain ⟨m, rfl⟩ := Nat.exists_eq_add_of_le' hle
        rw [← Nat.add_assoc, lineText_eq_none_of_le hline (Nat.le_add_left n m)]
        exact Bool.false_ne_true
      rw [hnone]
      rfl
    | some line =>
      rw [List.range'_succ, filter_cons_of_pos (by simp [hline]), map_cons,
        String.join_cons, ← ih, shownLine, hline]
      rfl

theorem render_eq {files : FileTable} {d : Diagnostic} {a : Anchor} {s : Source}
    (ha : d.anchors.head? = some a) (hs : files.get? a.position.file = some s) (c : Nat) :
    d.render files c = d.heading s.path a.position ++
      String.join ((window s a.position.line (c % UInt32.size)).map (shownLine s a)) ++
        d.notes := by
  obtain ⟨n, hn⟩ : ∃ n, max 1 (a.position.line - c % UInt32.size) = n + 1 :=
    ⟨max 1 (a.position.line - c % UInt32.size) - 1, by omega⟩
  simp only [render, ha, hs, excerpt, window, hn, excerptFrom_eq]
  rfl

/-- More lines around a line show all that fewer show. -/
theorem window_sublist (s : Source) (line : Nat) {c c' : Nat} (h : c ≤ c') :
    (window s line c).Sublist (window s line c') := by
  have hinfix (start skipped count more : Nat) :
      List.range' (start + skipped) count <:+: List.range' start (skipped + count + more) :=
    ⟨List.range' start skipped, List.range' (start + (skipped + count)) more, by
      rw [List.range'_append_1, List.range'_append_1]⟩
  have hinner := hinfix (max 1 (line - c')) (max 1 (line - c) - max 1 (line - c'))
    (line + c + 1 - max 1 (line - c)) (c' - c)
  have hstart : max 1 (line - c') + (max 1 (line - c) - max 1 (line - c')) =
      max 1 (line - c) := by omega
  have hcount : max 1 (line - c) - max 1 (line - c') + (line + c + 1 - max 1 (line - c)) +
      (c' - c) = line + c' + 1 - max 1 (line - c') := by omega
  rw [hstart, hcount] at hinner
  exact hinner.sublist.filter _

/-- A diagnostic shows, in order and once each, the lines that exist within the given number of
lines of its own, where that number counts modulo 2 ^ 32.  Below this bound, a larger number never
shows fewer lines. -/
theorem render_shows_window {files : FileTable} {d : Diagnostic} {a : Anchor} {s : Source}
    (ha : d.anchors.head? = some a) (hs : files.get? a.position.file = some s) :
    (∀ c, d.render files c = d.heading s.path a.position ++
      String.join ((window s a.position.line (c % UInt32.size)).map (shownLine s a)) ++
        d.notes) ∧
    (∀ c < UInt32.size, d.render files c = d.heading s.path a.position ++
      String.join ((window s a.position.line c).map (shownLine s a)) ++ d.notes) ∧
    ∀ c c', c ≤ c' →
      (window s a.position.line c).Sublist (window s a.position.line c') := by
  refine ⟨render_eq ha hs, fun c hc => ?_, fun c c' hle => window_sublist s _ hle⟩
  have hrender := render_eq ha hs c
  rwa [Nat.mod_eq_of_lt hc] at hrender

/-- One line around the first shows the second. -/
theorem render_shows_both_lines :
    let s := Source.ofText 0 "t" ['a', '\n', 'b']
    let a := Anchor.ofSpan s ⟨0, 1⟩
    let d : Diagnostic := ⟨.lexer, .error, 2003, "m", [a], none, none, []⟩
    window s 1 1 = [1, 2] ∧
      d.render ⟨[s]⟩ 1 = d.heading "t" a.position ++
        String.join ((window s 1 1).map (shownLine s a)) ++ d.notes := by
  intro s a d
  have hline : a.position.line = 1 := by decide
  have hrender := (@render_shows_window ⟨[s]⟩ d a s rfl rfl).2.1 1 (by decide)
  rw [hline] at hrender
  exact ⟨by decide, hrender⟩

/-- With 2 ^ 32 lines around the first, the second is not shown. -/
theorem render_wraps :
    let s := Source.ofText 0 "t" ['a', '\n', 'b']
    let a := Anchor.ofSpan s ⟨0, 1⟩
    let d : Diagnostic := ⟨.lexer, .error, 2003, "m", [a], none, none, []⟩
    d.render ⟨[s]⟩ UInt32.size = "t:1:1: error: [2003] m\n   1 | a\n     | ^\n" ∧
      a.position.line = 1 ∧ s.lineText 2 = some ['b'] := by
  decide +kernel

end Diagnostic

/-! ### The carets -/

theorem utf8ByteSize_ofList (word : List Char) :
    (String.ofList word).utf8ByteSize = byteLength word := by
  rw [← String.size_toByteArray, String.toByteArray_ofList, ← length_utf8Bytes]
  simp [List.utf8Encode, utf8Bytes]

theorem byteLength_repr (n : Nat) : byteLength (Nat.repr n).toList = (Nat.repr n).length := by
  rw [Nat.repr_eq_ofList_toDigits, String.toList_ofList, String.length_ofList]
  refine byteLength_of_ascii fun c hc => ?_
  have hdigit := Char.isDigit_iff_toNat.1 (Nat.isDigit_of_mem_toDigits (by decide) (by decide) hc)
  rw [Char.utf8Size_eq_one_iff, UInt32.le_iff_toNat_le]
  exact Nat.le_trans hdigit.2 (by decide)

namespace Source

/-- The line that a place is on goes from the last newline before it to the next one. -/
theorem lineText_ofText_append (id : Nat) (path : String) (before : List Char) {rest : List Char}
    (hrest : rest ≠ []) :
    (ofText id path (before ++ rest)).lineText (before.count '\n' + 1) =
      some (dropFinal '\r' (lastLine before ++ rest.takeWhile (· ≠ '\n'))) := by
  induction before using lines_induction with
  | last a ha =>
    have hpass {b : List Char} (hb : '\n' ∉ b) : ∀ c ∈ b, decide (c ≠ '\n') = true :=
      fun c hc => decide_eq_true fun heq => hb (heq ▸ hc)
    have hlast : lastLine a = a := rtakeWhile_eq_self_iff.2 (hpass ha)
    rw [count_eq_zero.2 ha, hlast]
    by_cases hmem : '\n' ∈ rest
    · obtain ⟨b, rest, rfl, hb⟩ := eq_append_cons_of_mem hmem
      have hline : '\n' ∉ a ++ b := not_mem_append ha hb
      rw [takeWhile_append_of_pos (hpass hb), takeWhile_cons_of_neg (by simp),
        append_nil, ← append_assoc, lineText_one_newline id path hline]
    · have hline : '\n' ∉ a ++ rest := not_mem_append ha hmem
      rw [takeWhile_eq_self_iff.2 (hpass hmem), lineText_of_notMem id path hline]
      rfl
  | line a b ha ih =>
    have hlast : lastLine (a ++ '\n' :: b) = lastLine b :=
      rtakeWhile_append_cons_of_neg (by simp) a b
    have hcount : (a ++ '\n' :: b).count '\n' = b.count '\n' + 1 := by
      rw [count_append, count_eq_zero.2 ha, count_cons_self, Nat.zero_add]
    rw [hlast, hcount, append_assoc, cons_append, lineText_newline id path ha (by simp [hrest]), ih]

end Source

namespace Diagnostic

/-- The place of the first caret of a line: the number of bytes before it. -/
def caretIndex (carets : String) : Nat :=
  byteLength (carets.toList.takeWhile (· ≠ '^'))

/-- The bytes of a line that stand above the carets of the line below it. -/
def aboveCarets (shown carets : String) : List UInt8 :=
  ((utf8Bytes shown.toList).drop (caretIndex carets)).take (carets.toList.count '^')

/-- The number of bytes before the text of a numbered line. -/
def gutterWidth (number : Nat) : Nat :=
  max 4 (Nat.repr number).length + 3

theorem drop_numberedLine (number n : Nat) (line : List Char) :
    (utf8Bytes (numberedLine number line).toList).drop (gutterWidth number + n) =
      (utf8Bytes line ++ [lineFeed]).drop n := by
  have hgutter : (utf8Bytes (padLeft 4 (Nat.repr number) ++ " | ").toList).length =
      gutterWidth number := by
    have hbar : byteLength " | ".toList = 3 := rfl
    rw [length_utf8Bytes, padLeft, String.toList_append, String.toList_append, byteLength_append,
      byteLength_append, String.toList_ofList, byteLength_repr, byteLength_replicate rfl,
      gutterWidth]
    omega
  rw [numberedLine, String.toList_append, String.toList_append, utf8Bytes_append, utf8Bytes_append,
    String.toList_ofList, append_assoc, ← hgutter, drop_length_add_append]
  rfl

theorem caretLine_carets (a : Anchor) (line : List Char) :
    caretIndex (caretLine a line) = 7 + (a.position.column - 1) ∧
      (caretLine a line).toList.count '^' = caretCount a.lexeme line a.position.column := by
  have hcarets : (caretLine a line).toList =
      "     | ".toList ++ List.replicate (a.position.column - 1) ' ' ++
        (List.replicate (caretCount a.lexeme line a.position.column) '^' ++ ['\n']) := by
    simp only [caretLine, String.toList_append, String.toList_ofList, append_assoc]
    rfl
  obtain ⟨n, hn⟩ : ∃ n, caretCount a.lexeme line a.position.column = n + 1 :=
    ⟨caretCount a.lexeme line a.position.column - 1, by rw [caretCount]; omega⟩
  have hblank : ∀ c ∈ "     | ".toList ++ List.replicate (a.position.column - 1) ' ',
      decide (c ≠ '^') = true := by
    intro c hc
    rcases mem_append.1 hc with hc | hc
    · exact all_eq_true.1 (by decide : "     | ".toList.all (fun c => decide (c ≠ '^'))) c hc
    · rw [eq_of_mem_replicate hc]
      rfl
  rw [caretIndex, hcarets, hn]
  constructor
  · rw [takeWhile_append_of_pos hblank, replicate_succ, cons_append,
      takeWhile_cons_of_neg (by simp), append_nil, byteLength_append, byteLength_replicate rfl]
    rfl
  · simp [count_replicate]

/-- The line that a span starts in, cut at the start of the span. -/
theorem line_of_marks {s : Source} {span : Span} {word line : List Char}
    (hmarks : span.Marks s.text word) (hword : word ≠ [])
    (hline : s.lineText (s.position span.offset).line = some line)
    (hinside : (s.position span.offset).column ≤ byteLength line) :
    ∃ front tail after : List Char, line = front ++ tail ∧
      (s.position span.offset).column = byteLength front + 1 ∧ tail ≠ [] ∧
      tail <+: word ++ after ∧
      (utf8Bytes s.text).drop span.offset = utf8Bytes (word ++ after) := by
  obtain ⟨before, after, htext, rfl⟩ := hmarks
  rw [append_assoc] at htext
  have hposition := s.position_eq htext
  have hshown := Source.lineText_ofText_append s.id s.path before
    (append_ne_nil_of_left_ne_nil hword after)
  rw [← htext, ← s.eq_ofText] at hshown
  simp only [hposition] at hline hinside ⊢
  rw [hshown, Option.some_inj] at hline
  have hfront : line <+: lastLine before ++ (word ++ after).takeWhile (· ≠ '\n') := by
    rw [← hline, Source.dropFinal]
    split
    · exact List.dropLast_prefix _
    · exact prefix_rfl
  rcases List.prefix_or_prefix_of_prefix hfront (prefix_append _ _) with
    ⟨more, hmore⟩ | ⟨tail, htail⟩
  · rw [← hmore, byteLength_append] at hinside
    omega
  · rw [← htail, prefix_append_right_inj] at hfront
    refine ⟨lastLine before, tail, after, htail.symm, rfl, ?_,
      hfront.trans (List.takeWhile_prefix _), ?_⟩
    · rintro rfl
      rw [← htail, append_nil] at hinside
      omega
    · rw [htext, utf8Bytes_append, ← length_utf8Bytes, drop_left]

theorem caretIndex_eq_iff (a : Anchor) (line : List Char) :
    caretIndex (caretLine a line) =
        gutterWidth a.position.line + (a.position.column - 1) ↔ a.position.line < 10000 := by
  have hdigits : (Nat.repr a.position.line).length ≤ 4 ↔ a.position.line < 10000 :=
    Nat.length_repr_le_iff (by decide)
  rw [(caretLine_carets a line).1, gutterWidth, ← hdigits]
  omega

/-- Carets under a word show as much of it as its line has. -/
theorem aboveCarets_eq {a : Anchor} {front tail word after : List Char}
    (hnumber : a.position.line < 10000) (hlexeme : a.lexeme = String.ofList word)
    (hcolumn : a.position.column = byteLength front + 1) (htail : tail ≠ []) (hword : word ≠ [])
    (hshown : tail <+: word ++ after) :
    aboveCarets (numberedLine a.position.line (front ++ tail)) (caretLine a (front ++ tail)) =
      (utf8Bytes word).take (min (byteLength word) (byteLength tail)) := by
  have hcount : caretCount a.lexeme (front ++ tail) a.position.column =
      min (byteLength word) (byteLength tail) := by
    have hpos := byteLength_pos htail
    have hpos' := byteLength_pos hword
    rw [caretCount, hlexeme, utf8ByteSize_ofList, hcolumn, byteLength_append]
    omega
  obtain ⟨more, hmore⟩ := hshown
  have hbytes := congrArg utf8Bytes hmore
  rw [utf8Bytes_append, utf8Bytes_append] at hbytes
  rw [aboveCarets, (caretIndex_eq_iff a _).2 hnumber, drop_numberedLine, (caretLine_carets a _).2,
    hcount, hcolumn, Nat.add_sub_cancel, utf8Bytes_append, append_assoc, ← length_utf8Bytes,
    ← length_utf8Bytes, ← length_utf8Bytes, drop_left,
    take_append_of_le_length (Nat.min_le_right _ _)]
  -- both are the first bytes of the text from the place on
  rw [← take_append_of_le_length (Nat.min_le_right _ _), hbytes,
    take_append_of_le_length (Nat.min_le_left _ _)]

/-- A diagnostic at a word that starts in the text of a line shows this line with carets below it,
whatever number of lines is shown around it.  From line 10000 on the carets stand too far left.
Before it, the first caret stands under the start of the word, and above the carets stands the part
of the word that is on the line. -/
theorem carets_under_lexeme {files : FileTable} {d : Diagnostic} {s : Source} {span : Span}
    {word line : List Char} (ha : d.anchors.head? = some (Anchor.ofSpan s span))
    (hs : files.get? s.id = some s) (hmarks : span.Marks s.text word) (hword : word ≠ [])
    (hline : s.lineText (s.position span.offset).line = some line)
    (hinside : (s.position span.offset).column ≤ byteLength line) (c : Nat) :
    let a := Anchor.ofSpan s span
    let number := a.position.line
    let start := gutterWidth number + (a.position.column - 1)
    let shown := numberedLine number line
    let carets := caretLine a line
    (∃ above below : List Nat, d.render files c =
      d.heading s.path a.position ++ String.join (above.map (shownLine s a)) ++ (shown ++ carets) ++
        String.join (below.map (shownLine s a)) ++ d.notes) ∧
    a.lexeme = String.ofList word ∧
    (∃ tail, tail ≠ [] ∧ (utf8Bytes shown.toList).drop start = tail ++ [lineFeed] ∧
      tail <+: (utf8Bytes s.text).drop span.offset) ∧
    (caretIndex carets = start ↔ number < 10000) ∧
    (number < 10000 →
      aboveCarets shown carets ≠ [] ∧ aboveCarets shown carets <+: utf8Bytes word ∧
        (a.position.column - 1 + byteLength word ≤ byteLength line →
          aboveCarets shown carets = utf8Bytes word)) := by
  intro a number start shown carets
  have hlexeme : a.lexeme = String.ofList word :=
    congrArg Anchor.lexeme (Anchor.ofSpan_of_marks hmarks)
  obtain ⟨front, tail, after, rfl, hcolumn, htail, hafter, hbytes⟩ :=
    line_of_marks hmarks hword hline hinside
  refine ⟨?_, hlexeme, ⟨utf8Bytes tail, ?_, ?_, ?_⟩, caretIndex_eq_iff a _, fun hnumber => ?_⟩
  · have hmem : number ∈ window s number (c % UInt32.size) := by
      have hpos : number ≠ 0 := fun hzero => by
        rw [show (s.position span.offset).line = 0 from hzero] at hline
        cases hline
      refine List.mem_filter.2 ⟨List.mem_range'_1.2 (by omega), ?_⟩
      exact Option.isSome_iff_exists.2 ⟨_, hline⟩
    obtain ⟨above, below, hwindow⟩ := List.append_of_mem hmem
    have hshown : shownLine s a number = shown ++ carets := by
      rw [shownLine, show s.lineText number = _ from hline]
      simp [number, shown, carets]
    refine ⟨above, below, ?_⟩
    rw [render_eq ha hs, hwindow, List.map_append, List.map_cons, String.join_append,
      String.join_cons, hshown]
    simp only [String.append_assoc]
    rfl
  · rw [← List.length_pos_iff, length_utf8Bytes]
    exact byteLength_pos htail
  · rw [drop_numberedLine, show a.position.column = _ from hcolumn, Nat.add_sub_cancel,
      utf8Bytes_append, List.append_assoc, ← length_utf8Bytes, List.drop_left]
  · obtain ⟨more, hmore⟩ := hafter
    rw [hbytes, ← hmore, utf8Bytes_append]
    exact List.prefix_append _ _
  · have habove : aboveCarets shown carets = _ :=
      aboveCarets_eq hnumber hlexeme hcolumn htail hword hafter
    have hpos := byteLength_pos htail
    have hpos' := byteLength_pos hword
    rw [habove]
    refine ⟨?_, List.take_prefix _ _, fun hfits => ?_⟩
    · rw [← List.length_pos_iff, List.length_take, length_utf8Bytes]
      omega
    · rw [show a.position.column = _ from hcolumn, byteLength_append] at hfits
      rw [Nat.min_eq_left (by omega), ← length_utf8Bytes, List.take_length]

/-- Carets under the last byte of a text of two lines. -/
theorem carets_under_second_line :
    let s := Source.ofText 0 "t" ['a', '\n', 'c', 'd']
    let a := Anchor.ofSpan s ⟨3, 1⟩
    s.lineText 2 = some ['c', 'd'] ∧
      aboveCarets (numberedLine 2 ['c', 'd']) (caretLine a ['c', 'd']) = utf8Bytes ['d'] := by
  intro s a
  have hmarks : (⟨3, 1⟩ : Span).Marks s.text ['d'] := ⟨['a', '\n', 'c'], [], rfl, rfl⟩
  have hcarets := @carets_under_lexeme ⟨[s]⟩ ⟨.lexer, .error, 2003, "m", [a], none, none, []⟩ s
    ⟨3, 1⟩ ['d'] ['c', 'd'] rfl rfl hmarks (by decide) (by decide) (by decide) 0
  have hnumber : (Anchor.ofSpan s ⟨3, 1⟩).position.line = 2 := by decide
  have habove := (hcarets.2.2.2.2 (by decide)).2.2 (by decide)
  rw [hnumber] at habove
  exact ⟨by decide, habove⟩

/-- From line 10000 on, the carets stand too far left. -/
theorem carets_left_of_lexeme :
    let s := Source.ofText 0 "t" (List.replicate 9999 '\n' ++ ['x'])
    let a := Anchor.ofSpan s ⟨9999, 1⟩
    (⟨.lexer, .error, 2003, "m", [a], none, none, []⟩ : Diagnostic).render ⟨[s]⟩ 0 =
      "t:10000:1: error: [2003] m\n10000 | x\n     | ^\n" := by
  intro s a
  have hlast : lastLine (List.replicate 9999 '\n') = [] := by
    rw [lastLine, List.replicate_succ', List.rtakeWhile_concat_neg _ _ _ (by simp)]
  have hsize : byteLength (List.replicate 9999 '\n') = 9999 := byteLength_replicate rfl 9999
  have hcount : (List.replicate 9999 '\n').count '\n' = 9999 := List.count_replicate_self
  have hposition := s.position_eq (rfl : s.text = List.replicate 9999 '\n' ++ ['x'])
  have hline := Source.lineText_ofText_append 0 "t" (List.replicate 9999 '\n')
    (by decide : ['x'] ≠ [])
  rw [hsize, hcount, hlast] at hposition
  rw [hcount, hlast] at hline
  have hmarks : (⟨9999, 1⟩ : Span).Marks s.text ['x'] :=
    ⟨List.replicate 9999 '\n', [], (List.append_nil _).symm, by rw [hsize]; rfl⟩
  have ha : a = ⟨⟨9999, 1⟩, ⟨0, 10000, 1, 9999⟩, "x"⟩ := by
    rw [show a = _ from Anchor.ofSpan_of_marks hmarks, hposition]
    rfl
  have hexcerpt : excerpt s a 0 = "10000 | x\n     | ^\n" := by
    rw [ha, excerpt]
    change excerptFrom s _ 1 10000 = _
    rw [excerptFrom, show s.lineText 10000 = _ from hline]
    rfl
  change _ ++ excerpt s a 0 ++ _ = _
  rw [hexcerpt, ha]
  rfl

end Diagnostic

end DeferLang
