import DeferLang.Proofs.LineScanning
import Mathlib.Data.Prod.Lex
import Mathlib.Order.Interval.Set.Defs

/-!
# Lines and their positions

A text is a last line, or a line before other lines (`lines_induction`).  Along this
the table of line starts, the positions that are read off it and the texts of the
lines agree: a position counts the newline bytes before an offset, and the line it
names is a piece between two newlines.  In words of 32 bits, positions are exact up to
a size of the text (`Source.locate_counts_lines`), and wrong where a line is longer.
-/

namespace DeferLang

open List

variable {a text : List Char}

/-- Induction over the lines of a text: the last line, and a line before others. -/
@[elab_as_elim]
theorem lines_induction {motive : List Char → Prop} (text : List Char)
    (last : ∀ a, '\n' ∉ a → motive a)
    (line : ∀ a b, '\n' ∉ a → motive b → motive (a ++ '\n' :: b)) : motive text := by
  induction hlength : text.length using Nat.strong_induction_on generalizing text with
  | h n ih =>
    by_cases hmem : '\n' ∈ text
    · obtain ⟨a, b, rfl, ha⟩ := eq_append_cons_of_mem hmem
      rw [length_append, length_cons] at hlength
      exact line a b ha (ih b.length (by omega) b rfl)
    · exact last text hmem

theorem byteLength_newline (a b : List Char) :
    byteLength (a ++ '\n' :: b) = byteLength b + (byteLength a + 1) := by
  have hsize : Char.utf8Size '\n' = 1 := rfl
  rw [byteLength_append, byteLength, hsize]
  omega

/-- An offset is on the first line, or behind its newline. -/
theorem le_or_behind (a : List Char) (o : Nat) :
    o ≤ byteLength a ∨ ∃ o', o = o' + (byteLength a + 1) := by
  rcases Nat.lt_or_ge (byteLength a) o with hlt | hle
  · exact .inr ⟨o - (byteLength a + 1), by omega⟩
  · exact .inl hle

theorem lineHeads_of_notMem (h : '\n' ∉ text) : lineHeads text = [0] := by
  have hnone : headsAfter 0 text = [] := by
    rw [← length_eq_zero_iff, length_headsAfter, count_eq_zero]
    exact h
  rw [lineHeads, hnone]

theorem sliceBytes_add (start stop : Nat) (a b : List Char) :
    sliceBytes (a ++ b) (byteLength a + start) (byteLength a + stop) = sliceBytes b start stop := by
  rw [sliceBytes, sliceBytes, dropBytes_add, Nat.add_sub_add_left]
  simp only [Nat.add_le_add_iff_left]

namespace Source

/-! ### The table of line starts -/

section Table

variable (id : Nat) (path : String)

theorem lineStarts_of_notMem (h : '\n' ∉ text) :
    (ofText id path text).lineStarts = if text = [] then [0] else [0, byteLength text] := by
  simp only [lineStarts, ofText, lineHeads_of_notMem h]
  by_cases hempty : text = []
  · subst hempty
    rfl
  · have hpos := byteLength_pos hempty
    rw [if_neg hempty, if_neg (by simp; omega)]
    rfl

/-- The lines behind a newline start where they start in the text behind it. -/
theorem lineStarts_newline (h : '\n' ∉ a) (b : List Char) :
    (ofText id path (a ++ '\n' :: b)).lineStarts =
      0 :: (ofText id path b).lineStarts.map (· + (byteLength a + 1)) := by
  have hlast : ((lineHeads b).map (· + (byteLength a + 1))).getLast? =
        some (byteLength b + (byteLength a + 1)) ↔
      (lineHeads b).getLast? = some (byteLength b) := by
    simp [List.getLast?_map]
  have hcons : (lineHeads b).map (· + (byteLength a + 1)) ≠ [] := by simp [lineHeads]
  simp only [lineStarts, ofText, lineHeads_newline, lineHeads_of_notMem h, byteLength_newline,
    List.getLast?_append_of_ne_nil _ hcons, hlast]
  by_cases hclosed : (lineHeads b).getLast? = some (byteLength b) <;> simp [hclosed]

theorem getElem?_zero_lineStarts (text : List Char) :
    (ofText id path text).lineStarts[0]? = some 0 :=
  List.head?_eq_getElem? ▸ (ofText id path text).lineStarts_sorted.1

/-! ### Positions -/

/-- On the first line, the column tells the offset. -/
theorem position_of_notMem (h : '\n' ∉ a) (rest : List Char) {o : Nat}
    (ho : o ≤ byteLength a) : (ofText id path (a ++ rest)).position o = ⟨id, 1, o + 1, o⟩ := by
  rw [position_append id path a rest ho]
  simp [position_eq_passed, ofText, lineHeads_of_notMem h, ho]

end Table
end Source

/-- The byte that ends a line. -/
def lineFeed : UInt8 := 10

/-- A byte below `0x80` stands for one character only. -/
theorem val_of_mem_utf8EncodeChar {c : Char} {b : UInt8} (h : b ∈ String.utf8EncodeChar c)
    (hb : b.toNat < 0x80) : c.val.toNat = b.toNat := by
  have hbyte (v : Nat) : b = UInt8.ofNat v ↔ b.toNat = v % 256 := by
    rw [← UInt8.toNat_inj, UInt8.toNat_ofNat']
  simp only [String.utf8EncodeChar] at h
  split_ifs at h <;>
    simp only [mem_cons, not_mem_nil, or_false, hbyte] at h <;> omega

/-- Only a newline is encoded with a newline byte. -/
theorem lineFeed_notMem_utf8Bytes (h : '\n' ∉ text) :
    lineFeed ∉ utf8Bytes text := by
  intro hmem
  obtain ⟨c, hc, hmem⟩ := mem_flatMap.1 hmem
  have hval : c.val.toNat = 10 := val_of_mem_utf8EncodeChar hmem (by decide)
  exact h ((Char.ext (UInt32.toNat_inj.1 hval) : c = '\n') ▸ hc)

theorem rtakeWhile_append_cons_of_neg {α : Type*} {p : α → Bool} {x : α} (h : p x = false)
    (a b : List α) : (a ++ x :: b).rtakeWhile p = b.rtakeWhile p := by
  have hneg : (x :: a.reverse).takeWhile p = [] := takeWhile_cons_of_neg (by simp [h])
  have hreverse : (a ++ x :: b).reverse = b.reverse ++ x :: a.reverse := by simp
  rw [List.rtakeWhile, List.rtakeWhile, hreverse, takeWhile_append, hneg, append_nil]
  split
  · rename_i hall
    rw [(List.takeWhile_prefix p).eq_of_length hall]
  · rfl

namespace Source

variable (id : Nat) (path : String)

/-- A position counts newline bytes, and its line starts where the table says. -/
theorem position_ofText (text : List Char) {o : Nat} (ho : o ≤ byteLength text) :
    (ofText id path text).position o =
        ⟨id, ((utf8Bytes text).take o).count lineFeed + 1,
          (((utf8Bytes text).take o).rtakeWhile (· ≠ lineFeed)).length + 1, o⟩ ∧
      ∃ start, (ofText id path text).lineStarts[((utf8Bytes text).take o).count lineFeed]? =
          some start ∧
        start + (((utf8Bytes text).take o).rtakeWhile (· ≠ lineFeed)).length = o := by
  -- on the first line there is no newline byte before the offset
  have hfirst {a : List Char} (ha : '\n' ∉ a) {o : Nat} (ho : o ≤ byteLength a) :
      ((utf8Bytes a).take o).count lineFeed = 0 ∧
        (((utf8Bytes a).take o).rtakeWhile (· ≠ lineFeed)).length = o := by
    have hnone : lineFeed ∉ (utf8Bytes a).take o := fun hmem =>
      lineFeed_notMem_utf8Bytes ha (mem_of_mem_take hmem)
    have hall : ((utf8Bytes a).take o).rtakeWhile (· ≠ lineFeed) = (utf8Bytes a).take o :=
      rtakeWhile_eq_self_iff.2 fun byte hmem => decide_eq_true fun heq => hnone (heq ▸ hmem)
    rw [hall, length_take, length_utf8Bytes]
    exact ⟨count_eq_zero.2 hnone, Nat.min_eq_left ho⟩
  induction text using lines_induction generalizing o with
  | last a ha =>
    obtain ⟨hcount, hlength⟩ := hfirst ha ho
    rw [hcount, hlength, ← position_of_notMem id path ha [] ho, append_nil]
    exact ⟨rfl, 0, getElem?_zero_lineStarts id path a, Nat.zero_add o⟩
  | line a b ha ih =>
    have hbytes : utf8Bytes (a ++ '\n' :: b) = utf8Bytes a ++ lineFeed :: utf8Bytes b :=
      flatMap_append
    rw [hbytes]
    rcases le_or_behind a o with hle | ⟨o, rfl⟩
    · obtain ⟨hcount, hlength⟩ := hfirst ha hle
      have hlt : o ≤ (utf8Bytes a).length := by rwa [length_utf8Bytes]
      rw [take_append_of_le_length hlt, hcount, hlength,
        ← position_of_notMem id path ha ('\n' :: b) hle]
      exact ⟨rfl, 0, getElem?_zero_lineStarts id path _, Nat.zero_add o⟩
    · rw [byteLength_newline, Nat.add_le_add_iff_right] at ho
      obtain ⟨hposition, start, hstart, hlength⟩ := ih ho
      have htake : (utf8Bytes a ++ lineFeed :: utf8Bytes b).take (o + (byteLength a + 1)) =
          utf8Bytes a ++ lineFeed :: (utf8Bytes b).take o := by
        have hadd : o + (byteLength a + 1) = (utf8Bytes a).length + (o + 1) := by
          rw [length_utf8Bytes]
          omega
        rw [hadd, take_length_add_append, take_succ_cons]
      have hcount : (utf8Bytes a).count lineFeed = 0 :=
        count_eq_zero.2 (lineFeed_notMem_utf8Bytes ha)
      rw [htake, rtakeWhile_append_cons_of_neg (by simp), position_behind_newline, hposition,
        lineStarts_newline id path ha, count_append, count_cons_self, hcount, count_eq_zero.2 ha,
        Nat.zero_add, Nat.zero_add, List.getElem?_cons_succ, List.getElem?_map, hstart]
      exact ⟨rfl, start + (byteLength a + 1), rfl, by omega⟩

/-! ### Texts of lines -/

end Source

/-- The lines of a text, without their newlines.  Behind a last newline there is no line. -/
def textLines (text : List Char) : List (List Char) :=
  let pieces := text.splitOn '\n'
  if pieces.getLast? = some [] ∧ 1 < pieces.length then pieces.dropLast else pieces

theorem textLines_isPrefix (text : List Char) : textLines text <+: text.splitOn '\n' := by
  rw [textLines]
  split
  · exact List.dropLast_prefix _
  · exact prefix_rfl

theorem textLines_of_notMem (h : '\n' ∉ text) : textLines text = [text] := by
  have hone : text.splitOn '\n' = [text] := splitOn_eq_singleton h
  simp [textLines, hone]

theorem textLines_newline (h : '\n' ∉ a) (b : List Char) :
    textLines (a ++ '\n' :: b) = if b = [] then [a] else a :: textLines b := by
  have hsplit : (a ++ '\n' :: b).splitOn '\n' = a :: b.splitOn '\n' :=
    splitOn_append_cons_self_of_not_mem h b
  by_cases hempty : b = []
  · subst hempty
    simp [textLines, hsplit]
  · -- a text of one empty piece is empty, so the two tests agree
    have hlong : b.splitOn '\n' ≠ [[]] := by
      intro hone
      have hback := congrArg (List.intercalate ['\n']) hone
      rw [intercalate_splitOn] at hback
      exact hempty hback
    obtain ⟨piece, pieces, hpieces⟩ := exists_cons_of_ne_nil (splitOn_ne_nil '\n' b)
    simp only [textLines, hsplit, hpieces, if_neg hempty] at hlong ⊢
    cases pieces with
    | nil => simpa using hlong
    | cons piece' pieces =>
      simp only [List.getLast?_cons_cons, length_cons, dropLast_cons_cons]
      split <;> simp_all

namespace Source

variable (id : Nat) (path : String)

theorem dropFinal_concat (c : Char) (cs : List Char) : dropFinal c (cs ++ [c]) = cs := by
  simp [dropFinal]

theorem dropFinal_of_notMem {c : Char} {cs : List Char} (h : c ∉ cs) : dropFinal c cs = cs :=
  if_neg fun hlast => h (mem_of_getLast? hlast)

theorem lineText_of_notMem (h : '\n' ∉ text) (i : Nat) :
    (ofText id path text).lineText (i + 1) = [text][i]?.map (dropFinal '\r') := by
  have hwhole : sliceBytes text 0 (byteLength text) = some text := by
    simpa [byteLength] using sliceBytes_append [] text []
  rw [lineText, lineStarts_of_notMem id path h]
  by_cases hempty : text = []
  · subst hempty
    cases i <;> rfl
  · rw [if_neg hempty]
    cases i with
    | zero => simp [slice, ofText, hwhole, dropFinal_of_notMem h]
    | succ i => cases i <;> simp [ofText]

theorem lineText_one_newline (h : '\n' ∉ a) (b : List Char) :
    (ofText id path (a ++ '\n' :: b)).lineText 1 = some (dropFinal '\r' a) := by
  have hline : (ofText id path (a ++ '\n' :: b)).slice 0 (byteLength a + 1) =
      some (a ++ ['\n']) := by
    simpa [byteLength, Char.utf8Size, slice, ofText] using sliceBytes_append [] (a ++ ['\n']) b
  rw [lineText, lineStarts_newline id path h]
  simp [getElem?_zero_lineStarts, hline, dropFinal_concat]

/-- Behind a newline, lines are those of the text behind it, if there is any. -/
theorem lineText_newline (h : '\n' ∉ a) {b : List Char} (hb : b ≠ []) (i : Nat) :
    (ofText id path (a ++ '\n' :: b)).lineText (i + 2) = (ofText id path b).lineText (i + 1) := by
  have hsize : (ofText id path (a ++ '\n' :: b)).size =
      (ofText id path b).size + (byteLength a + 1) := byteLength_newline a b
  have hslice (start stop : Nat) :
      (ofText id path (a ++ '\n' :: b)).slice (start + (byteLength a + 1))
        (stop + (byteLength a + 1)) = (ofText id path b).slice start stop := by
    have hbehind := sliceBytes_add start stop (a ++ ['\n']) b
    rwa [byteLength_newline, append_assoc, byteLength, Nat.zero_add, Nat.add_comm _ start,
      Nat.add_comm _ stop] at hbehind
  rw [lineText, lineText, lineStarts_newline id path h, List.getElem?_cons_succ, List.getElem?_map,
    hsize, getD_cons_succ]
  cases hstart : (ofText id path b).lineStarts[i]? with
  | none => rfl
  | some start =>
    have hpast : (ofText id path b).size + (byteLength a + 1) ≤ start + (byteLength a + 1) ∧
        0 < i + 1 ↔ (ofText id path b).size ≤ start ∧ 0 < i := by
      cases i with
      | zero =>
        have hpos : 0 < (ofText id path b).size := byteLength_pos hb
        rw [getElem?_zero_lineStarts, Option.some_inj] at hstart
        omega
      | succ i => omega
    simp only [Option.map_some, hpast]
    have hgetD : ((ofText id path b).lineStarts.map (· + (byteLength a + 1))).getD (i + 1)
          ((ofText id path b).size + (byteLength a + 1)) =
        (ofText id path b).lineStarts.getD (i + 1) (ofText id path b).size +
          (byteLength a + 1) := by
      rw [getD_eq_getElem?_getD, List.getElem?_map, getD_eq_getElem?_getD]
      exact Option.getD_map _ _ _
    rw [hgetD, hslice]

/-- The text of a line is a line of the text without a final carriage return. -/
theorem lineText_ofText (text : List Char) (i : Nat) :
    (ofText id path text).lineText (i + 1) = (textLines text)[i]?.map (dropFinal '\r') := by
  induction text using lines_induction generalizing i with
  | last a ha => rw [textLines_of_notMem ha, lineText_of_notMem id path ha]
  | line a b ha ih =>
    rw [textLines_newline ha]
    cases i with
    | zero =>
      rw [lineText_one_newline id path ha]
      split <;> rfl
    | succ i =>
      by_cases hb : b = []
      · subst hb
        have hstarts : (ofText id path (a ++ ['\n'])).lineStarts =
            [0, 0 + (byteLength a + 1)] :=
          lineStarts_newline id path ha []
        have hsize : (ofText id path (a ++ ['\n'])).size = 0 + (byteLength a + 1) :=
          byteLength_newline a []
        rw [if_pos rfl, lineText, hstarts, hsize]
        cases i <;> simp
      · rw [if_neg hb, lineText_newline id path ha hb, ih, List.getElem?_cons_succ]

/-- There is a line of a number if one of the bytes is on it. -/
theorem lt_length_textLines_ofText (text : List Char) (i : Nat) :
    i < (textLines text).length ↔
      i = 0 ∨ ∃ o < byteLength text, ((ofText id path text).position o).line = i + 1 := by
  induction text using lines_induction generalizing i with
  | last a ha =>
    rw [textLines_of_notMem ha, length_singleton, Nat.lt_one_iff]
    refine ⟨.inl, ?_⟩
    rintro (rfl | ⟨o, ho, hline⟩)
    · rfl
    · rw [← append_nil a, position_of_notMem id path ha [] (Nat.le_of_lt ho)] at hline
      exact (Nat.succ.inj hline).symm
  | line a b ha ih =>
    have hbehind (o : Nat) :
        ((ofText id path (a ++ '\n' :: b)).position (o + (byteLength a + 1))).line =
          ((ofText id path b).position o).line + 1 := by
      rw [position_behind_newline, Position.moved, count_eq_zero.2 ha]
    cases i with
    | zero =>
      rw [textLines_newline ha]
      split <;> simp
    | succ i =>
      have hmoved : (∃ o < byteLength (a ++ '\n' :: b),
            ((ofText id path (a ++ '\n' :: b)).position o).line = i + 1 + 1) ↔
          ∃ o < byteLength b, ((ofText id path b).position o).line = i + 1 := by
        rw [byteLength_newline]
        constructor
        · rintro ⟨o, ho, hline⟩
          rcases le_or_behind a o with hle | ⟨o, rfl⟩
          · rw [position_of_notMem id path ha _ hle] at hline
            cases hline
          · exact ⟨o, by omega, Nat.succ.inj ((hbehind o).symm.trans hline)⟩
        · rintro ⟨o, ho, hline⟩
          exact ⟨o + (byteLength a + 1), by omega, by rw [hbehind, hline]⟩
      rw [hmoved, textLines_newline ha, or_iff_right (Nat.succ_ne_zero i)]
      by_cases hb : b = []
      · simp [hb, byteLength]
      · rw [if_neg hb, length_cons, Nat.add_lt_add_iff_right, ih, or_iff_right_iff_imp]
        rintro rfl
        refine ⟨0, byteLength_pos hb, ?_⟩
        exact congrArg Position.line ((ofText id path b).position_eq (nil_append b).symm)

theorem eq_ofText (s : Source) : s = ofText s.id s.path s.text := by
  obtain ⟨id, path, text, size, heads, rfl, rfl⟩ := s
  rfl

end Source

/-- Positions are ordered by file, line, column and offset, in this order. -/
def Position.key (p : Position) : Lex (Nat × Lex (Nat × Lex (Nat × Nat))) :=
  toLex (p.file, toLex (p.line, toLex (p.column, p.offset)))

/-- The place that a location names. -/
def Location.toPosition (l : Location) : Position where
  file := l.file
  line := l.line.toNat
  column := l.column.toNat
  offset := l.offset

namespace Source

variable (s : Source)

theorem key_position_strictMonoOn :
    StrictMonoOn (fun o => (s.position o).key) (Set.Iic s.size) := by
  intro o _ o' ho' hlt
  have hbefore := s.position_before hlt ho'
  have hfile : (s.position o).file = (s.position o').file := rfl
  rw [Position.Before] at hbefore
  simp only [Position.key, Prod.Lex.toLex_lt_toLex]
  exact .inr ⟨hfile, hbefore.imp_right (And.imp_right .inl)⟩

theorem position_min (o : Nat) : s.position (min o s.size) = s.position o := by
  simp only [position, Nat.min_assoc, Nat.min_self]

/-- Positions of a text follow the offsets. -/
theorem key_position_monotone : Monotone fun o => (s.position o).key := by
  intro o o' hle
  have hkey : (s.position (min o s.size)).key ≤ (s.position (min o' s.size)).key :=
    s.key_position_strictMonoOn.monotoneOn (Nat.min_le_right _ _) (Nat.min_le_right _ _)
      (by omega)
  rwa [position_min, position_min] at hkey

/-- Line and column alone tell the offsets of a text apart. -/
theorem lineColumn_injOn :
    Set.InjOn (fun o => ((s.position o).line, (s.position o).column)) (Set.Iic s.size) := by
  intro o ho o' ho' heq
  obtain ⟨hline, hcolumn⟩ := Prod.mk.inj heq
  by_contra hne
  rcases Nat.lt_or_gt_of_ne hne with hlt | hlt
  · have hbefore := s.position_before hlt ho'
    rw [Position.Before] at hbefore
    omega
  · have hbefore := s.position_before hlt ho
    rw [Position.Before] at hbefore
    omega

/-- The bytes of a text before an offset.  Offsets past the end stand for the end. -/
def bytesBefore (o : Nat) : List UInt8 :=
  (utf8Bytes s.text).take (min o s.size)

theorem position_eq_count (o : Nat) :
    s.position o =
        ⟨s.id, (s.bytesBefore o).count lineFeed + 1,
          ((s.bytesBefore o).rtakeWhile (· ≠ lineFeed)).length + 1, min o s.size⟩ ∧
      ∃ start, s.lineStarts[(s.bytesBefore o).count lineFeed]? = some start ∧
        start + ((s.bytesBefore o).rtakeWhile (· ≠ lineFeed)).length = min o s.size := by
  have hspec := position_ofText s.id s.path s.text (s.size_eq ▸ Nat.min_le_right o s.size)
  rwa [← s.eq_ofText, ← s.size_eq, position_min] at hspec

theorem lineText_eq (i : Nat) :
    s.lineText (i + 1) = (textLines s.text)[i]?.map (dropFinal '\r') := by
  have hline := lineText_ofText s.id s.path s.text i
  rwa [← s.eq_ofText] at hline

theorem lt_length_textLines_iff (i : Nat) :
    i < (textLines s.text).length ↔ i = 0 ∨ ∃ o < s.size, (s.position o).line = i + 1 := by
  have hline := lt_length_textLines_ofText s.id s.path s.text i
  rwa [← s.eq_ofText, ← s.size_eq] at hline

/-- Lines and columns are numbers up to one more than the size of the text. -/
theorem position_le_size (o : Nat) :
    (s.position o).line ≤ s.size + 1 ∧ (s.position o).column ≤ s.size + 1 := by
  have hlength : (s.bytesBefore o).length ≤ s.size :=
    Nat.le_trans (length_take_le _ _) (Nat.min_le_right _ _)
  have hcount : (s.bytesBefore o).count lineFeed ≤ (s.bytesBefore o).length :=
    count_le_length
  have hlast := (rtakeWhile_suffix (· ≠ lineFeed) (s.bytesBefore o)).length_le
  rw [(s.position_eq_count o).1]
  dsimp only
  omega

/-- A location holds the numbers of the position in words. -/
theorem locate_eq (o : Nat) :
    s.locate o =
      { file := (s.position o).file
        line := UInt32.ofNat (s.position o).line
        column := UInt32.ofNat (s.position o).column
        offset := (s.position o).offset } := by
  simp only [locate, position, UInt32.ofNat_add]
  rfl

/-- Where one more than the size fits into a word, locations are exact. -/
theorem toPosition_locate (h : s.size + 1 < UInt32.size) (o : Nat) :
    (s.locate o).toPosition = s.position o := by
  obtain ⟨hline, hcolumn⟩ := s.position_le_size o
  rw [locate_eq, Location.toPosition, UInt32.toNat_ofNat_of_lt' (by omega),
    UInt32.toNat_ofNat_of_lt' (by omega)]

/-- Locations count lines in all texts shorter than `2 ^ 32 - 1` bytes: the line of an offset is
the number of newline bytes before it, its column that of the bytes behind the last of them.  So
locations follow the offsets, and line and column tell these apart.  In all texts, the table that
is searched has the start of each line, goes up, and ends with the text.  There is a first line,
and a further one if a byte is on it: a piece between newlines without a final carriage return. -/
theorem locate_counts_lines :
    (s.size + 1 < UInt32.size →
      (∀ o, (s.locate o).toPosition =
        { file := s.id
          line := (s.bytesBefore o).count lineFeed + 1
          column := ((s.bytesBefore o).rtakeWhile (· ≠ lineFeed)).length + 1
          offset := min o s.size }) ∧
      (Monotone fun o => (s.locate o).toPosition.key) ∧
      Set.InjOn (fun o => ((s.locate o).line, (s.locate o).column)) (Set.Iic s.size)) ∧
    (∀ o, ∃ start, s.lineStarts[(s.bytesBefore o).count lineFeed]? = some start ∧
      start + ((s.bytesBefore o).rtakeWhile (· ≠ lineFeed)).length = min o s.size) ∧
    s.lineStarts.head? = some 0 ∧
    s.lineStarts.Pairwise (· < ·) ∧
    s.lineStarts.getLast? = some s.size ∧
    (∀ l, (s.lineText l).isSome ↔
      l = 1 ∨ ∃ o < s.size, (s.bytesBefore o).count lineFeed + 1 = l) ∧
    ∀ l line, s.lineText l = some line →
      ∃ piece, (s.text.splitOn '\n')[l - 1]? = some piece ∧ line = dropFinal '\r' piece := by
  obtain ⟨hhead, hsorted, hlast⟩ := s.lineStarts_sorted
  have hline (o : Nat) : (s.position o).line = (s.bytesBefore o).count lineFeed + 1 := by
    rw [(s.position_eq_count o).1]
  refine ⟨fun hsize => ?_, fun o => (s.position_eq_count o).2, hhead, hsorted, hlast, ?_, ?_⟩
  · have hexact := s.toPosition_locate hsize
    refine ⟨fun o => by rw [hexact, (s.position_eq_count o).1], ?_, ?_⟩
    · simp only [hexact]
      exact s.key_position_monotone
    · intro o ho o' ho' heq
      obtain ⟨hline, hcolumn⟩ := Prod.mk.inj heq
      refine s.lineColumn_injOn ho ho' ?_
      simp only [← hexact, Location.toPosition, hline, hcolumn]
  · intro l
    simp only [← hline]
    cases l with
    | zero =>
        have hpos (o : Nat) : (s.position o).line ≠ 0 := by simp [hline]
        simp [lineText, hpos]
    | succ i =>
        rw [s.lineText_eq, Option.isSome_map, isSome_getElem?, s.lt_length_textLines_iff,
          Nat.succ_inj]
  · intro l line hline
    cases l with
    | zero => cases hline
    | succ i =>
        rw [s.lineText_eq, Option.map_eq_some_iff] at hline
        obtain ⟨piece, hpiece, rfl⟩ := hline
        obtain ⟨hlt, rfl⟩ := List.getElem?_eq_some_iff.1 hpiece
        exact ⟨_, List.prefix_iff_getElem?.1 (textLines_isPrefix s.text) i hlt, rfl⟩

theorem locate_counts_lines_twoLines :
    let s := ofText 0 "t" ['a', '\n', 'b']
    s.size + 1 < UInt32.size ∧ (s.locate 2).toPosition = ⟨0, 2, 1, 2⟩ ∧
      s.lineText 2 = some ['b'] := by
  intro s
  have hsize : s.size + 1 < UInt32.size := by decide
  have hline : (s.lineText 2).isSome :=
    ((locate_counts_lines s).2.2.2.2.2.1 2).2 (.inr ⟨2, by decide, by decide⟩)
  obtain ⟨line, hline⟩ := Option.isSome_iff_exists.1 hline
  obtain ⟨piece, hpiece, rfl⟩ := (locate_counts_lines s).2.2.2.2.2.2 2 line hline
  have hb : some ['b'] = some piece := hpiece
  refine ⟨hsize, ((locate_counts_lines s).1 hsize).1 2, ?_⟩
  rw [hline, ← Option.some.inj hb]
  decide

/-- The end of a long line has a column that is no word. -/
theorem locate_ne_of_longLine (hline : '\n' ∉ text) (hlong : UInt32.size ≤ byteLength text + 1) :
    let s := ofText 0 "t" text
    (s.locate s.size).toPosition ≠ s.position s.size := by
  intro s heq
  have hposition := position_of_notMem 0 "t" hline [] (Nat.le_refl _)
  rw [append_nil] at hposition
  have hcolumn : (s.position s.size).column = byteLength text + 1 :=
    congrArg Position.column hposition
  have hequal : (s.locate s.size).column.toNat = (s.position s.size).column :=
    congrArg Position.column heq
  have hword := (s.locate s.size).column.toNat_lt_size
  omega

/-- A text of `2 ^ 32 - 1` bytes without a newline has its end in column `2 ^ 32`. -/
theorem locate_wraps_longLine :
    let s := ofText 0 "t" (List.replicate (UInt32.size - 1) 'a')
    s.size < UInt32.size ∧
      (s.locate s.size).toPosition ≠
        { file := s.id
          line := (s.bytesBefore s.size).count lineFeed + 1
          column := ((s.bytesBefore s.size).rtakeWhile (· ≠ lineFeed)).length + 1
          offset := min s.size s.size } := by
  have hbytes := byteLength_replicate (rfl : 'a'.utf8Size = 1) (UInt32.size - 1)
  have hline : '\n' ∉ List.replicate (UInt32.size - 1) 'a' :=
    fun hmem => absurd (List.eq_of_mem_replicate hmem) (by decide)
  generalize List.replicate (UInt32.size - 1) 'a' = text at hbytes hline
  intro s
  have hsize : s.size = UInt32.size - 1 := hbytes
  rw [← (s.position_eq_count s.size).1]
  refine ⟨?_, locate_ne_of_longLine hline ?_⟩
  · rw [hsize]
    decide
  · rw [hbytes]
    decide

end Source

end DeferLang
