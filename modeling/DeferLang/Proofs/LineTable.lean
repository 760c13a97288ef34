import DeferLang.Text.Source
import Mathlib.Data.List.DropRight

/-!
# Searching the table of line starts

Positions are found by binary search among the line starts.  In a sorted table the
search tells how many entries are not behind its argument (`found_search`), so the
line of an offset counts the lines that start up to it (`Source.position_eq_passed`).
-/

namespace DeferLang

open List

section Search

variable {table : List Nat}

/-- The number of leading entries that are not behind `x`. -/
def rank (table : List Nat) (x : Nat) : Nat :=
  (table.takeWhile (· ≤ x)).length

theorem getD_lt_getD (hsorted : table.Pairwise (· < ·)) {i j : Nat} (hij : i < j)
    (hj : j < table.length) : table.getD i 0 < table.getD j 0 := by
  have hlt := pairwise_iff_getElem.1 hsorted i j (Nat.lt_trans hij hj) hj hij
  simpa [getD_eq_getElem?_getD, hj, Nat.lt_trans hij hj] using hlt

/-- In a sorted table, the entries that are not behind `x` are the first ones. -/
theorem getD_le_iff (hsorted : table.Pairwise (· < ·)) (x : Nat) {i : Nat}
    (hi : i < table.length) : table.getD i 0 ≤ x ↔ i < rank table x := by
  induction table generalizing i with
  | nil => cases hi
  | cons entry table ih =>
    by_cases hentry : entry ≤ x
    · have hrank : rank (entry :: table) x = rank table x + 1 := by simp [rank, hentry]
      cases i with
      | zero => simp [hrank, hentry]
      | succ i =>
        rw [hrank, getD_cons_succ, Nat.add_lt_add_iff_right]
        exact ih hsorted.of_cons (Nat.lt_of_succ_lt_succ hi)
    · have hrank : rank (entry :: table) x = 0 := by simp [rank, hentry]
      have hbehind : x < (entry :: table).getD i 0 := by
        cases i with
        | zero => simpa using hentry
        | succ i =>
          exact Nat.lt_trans (Nat.lt_of_not_le hentry) (getD_lt_getD hsorted i.succ_pos hi)
      omega

theorem rank_le_length (table : List Nat) (x : Nat) : rank table x ≤ table.length :=
  (List.takeWhile_prefix _).length_le

theorem rank_concat (table : List Nat) (entry x : Nat) :
    rank (table ++ [entry]) x =
      rank table x + if rank table x = table.length ∧ entry ≤ x then 1 else 0 := by
  simp only [rank, takeWhile_append]
  by_cases hwhole : (table.takeWhile (· ≤ x)).length = table.length
  · by_cases hentry : entry ≤ x <;> simp [hwhole, hentry]
  · simp [hwhole]

/-- What a search answers about an argument of rank `n`: it is the last entry that is not
behind it, or it is missing after them. -/
def RankFound (n : Nat) : Except Nat Nat → Prop
  | .ok i => i + 1 = n
  | .error i => i = n

/-- The rank stays in the range that is still searched. -/
theorem found_searchBetween (hsorted : table.Pairwise (· < ·)) (x : Nat) {rounds lo hi : Nat}
    (hlo : lo ≤ rank table x) (hhi : rank table x ≤ hi) (hlength : hi ≤ table.length)
    (hrounds : hi ≤ lo + rounds) :
    RankFound (rank table x) (searchBetween table x rounds lo hi) := by
  induction rounds generalizing lo hi with
  | zero =>
    show lo = rank table x
    omega
  | succ rounds ih =>
    rw [searchBetween]
    by_cases hrange : lo < hi
    · rw [if_pos hrange]
      have hmid : lo + (hi - lo) / 2 < hi := by omega
      have hlow : lo ≤ lo + (hi - lo) / 2 := Nat.le_add_right _ _
      generalize lo + (hi - lo) / 2 = mid at hmid hlow ⊢
      dsimp only
      have hrank := getD_le_iff hsorted x (Nat.lt_of_lt_of_le hmid hlength)
      split_ifs with hequal hless
      · -- an entry behind the one that is found is behind `x`
        show mid + 1 = rank table x
        have hnext : ¬ mid + 1 < rank table x := fun hnext => by
          have hlt := getD_lt_getD hsorted (Nat.lt_add_one mid) (by omega)
          have hle := (getD_le_iff hsorted x (by omega)).2 hnext
          omega
        omega
      · exact ih (by omega) hhi hlength (by omega)
      · exact ih hlo (by omega) (by omega) (by omega)
    · rw [if_neg hrange]
      show lo = rank table x
      omega

/-- A search in a sorted table tells how many entries are not behind its argument. -/
theorem found_search (hsorted : table.Pairwise (· < ·)) (x : Nat) :
    RankFound (rank table x) (search table x) :=
  found_searchBetween hsorted x (Nat.zero_le _) (rank_le_length _ _) (Nat.le_refl _)
    (Nat.le_add_left _ _)

/-- Where a table starts with zero, there is an entry that is not behind any number. -/
theorem searchLast_add_one (hsorted : table.Pairwise (· < ·)) (hzero : table.head? = some 0)
    (x : Nat) : searchLast table x + 1 = rank table x := by
  have hpos : 0 < rank table x := by
    obtain ⟨later, rfl⟩ := List.head?_eq_some_iff.1 hzero
    simp [rank]
  have hfound := found_search hsorted x
  rw [searchLast]
  split
  all_goals
    rename_i hanswer
    rw [hanswer, RankFound] at hfound
    omega

end Search

section Heads

theorem headsAfter_add (start bytes : Nat) (text : List Char) :
    headsAfter (start + bytes) text = (headsAfter start text).map (· + bytes) := by
  induction text generalizing start with
  | nil => rfl
  | cons c cs ih =>
    have hcomm : start + bytes + c.utf8Size = start + c.utf8Size + bytes := by omega
    simp only [headsAfter, hcomm, ih]
    split <;> rfl

theorem headsAfter_append (start : Nat) (a b : List Char) :
    headsAfter start (a ++ b) = headsAfter start a ++ headsAfter (start + byteLength a) b := by
  induction a generalizing start with
  | nil => rfl
  | cons c cs ih =>
    simp only [cons_append, headsAfter, byteLength, ih, Nat.add_assoc]
    split <;> rfl

theorem length_headsAfter (start : Nat) (text : List Char) :
    (headsAfter start text).length = text.count '\n' := by
  induction text generalizing start with
  | nil => rfl
  | cons c cs ih =>
    rw [headsAfter]
    by_cases hline : c = '\n'
    · rw [if_pos hline, length_cons, ih, hline, count_cons_self]
    · rw [if_neg hline, ih, count_cons_of_ne hline]

/-- Lines start behind the start of a text, and not behind its end. -/
theorem bounds_of_mem_headsAfter {start head : Nat} {text : List Char}
    (h : head ∈ headsAfter start text) : start < head ∧ head ≤ start + byteLength text := by
  induction text generalizing start with
  | nil => simp [headsAfter] at h
  | cons c cs ih =>
    have hpos := c.utf8Size_pos
    have hlater (h : head ∈ headsAfter (start + c.utf8Size) cs) :
        start < head ∧ head ≤ start + byteLength (c :: cs) := by
      have hbounds := ih h
      rw [byteLength]
      omega
    rw [headsAfter] at h
    split at h
    · rcases mem_cons.1 h with rfl | h
      · rw [byteLength]
        omega
      · exact hlater h
    · exact hlater h

theorem length_lineHeads (text : List Char) : (lineHeads text).length = text.count '\n' + 1 := by
  rw [lineHeads, length_cons, length_headsAfter]

theorem le_of_mem_lineHeads {head : Nat} {text : List Char} (h : head ∈ lineHeads text) :
    head ≤ byteLength text := by
  rcases mem_cons.1 h with rfl | h
  · exact Nat.zero_le _
  · have hbounds := bounds_of_mem_headsAfter h
    omega

/-- The lines behind a newline are those of the text behind it. -/
theorem lineHeads_newline (a b : List Char) :
    lineHeads (a ++ '\n' :: b) = lineHeads a ++ (lineHeads b).map (· + (byteLength a + 1)) := by
  have hsize : Char.utf8Size '\n' = 1 := rfl
  simp only [lineHeads, headsAfter_append, headsAfter, if_true, hsize, Nat.zero_add,
    map_cons, cons_append]
  rw [← headsAfter_add, Nat.zero_add]

/-- Up to the end of a text, what follows it does not matter to its lines. -/
theorem takeWhile_lineHeads_append {offset : Nat} {a : List Char} (b : List Char)
    (h : offset ≤ byteLength a) :
    (lineHeads (a ++ b)).takeWhile (· ≤ offset) = (lineHeads a).takeWhile (· ≤ offset) := by
  have hbehind : (headsAfter (0 + byteLength a) b).takeWhile (· ≤ offset) = [] := by
    rw [takeWhile_eq_nil_iff]
    intro hne hle
    have hbounds := bounds_of_mem_headsAfter (get_mem _ ⟨0, hne⟩)
    simp only [decide_eq_true_eq] at hle
    omega
  rw [lineHeads, headsAfter_append, ← cons_append, takeWhile_append, hbehind,
    append_nil, ← lineHeads]
  split
  · rename_i hall
    exact ((List.takeWhile_prefix _).eq_of_length hall).symm
  · rfl

theorem takeWhile_lineHeads_self (text : List Char) :
    (lineHeads text).takeWhile (· ≤ byteLength text) = lineHeads text := by
  rw [takeWhile_eq_self_iff]
  intro head hmem
  exact decide_eq_true (le_of_mem_lineHeads hmem)

/-- What of a text stands on its last line. -/
def lastLine (text : List Char) : List Char :=
  text.rtakeWhile (· ≠ '\n')

/-- The last line starts where its bytes begin. -/
theorem getLastD_lineHeads (text : List Char) :
    (lineHeads text).getLastD 0 + byteLength (lastLine text) = byteLength text := by
  induction text using List.reverseRecOn with
  | nil => rfl
  | append_singleton cs c ih =>
    by_cases hline : c = '\n'
    · subst hline
      have hheads : lineHeads (cs ++ ['\n']) = lineHeads cs ++ [0 + (byteLength cs + 1)] :=
        lineHeads_newline cs []
      rw [hheads, getLastD_concat, lastLine, rtakeWhile_concat_neg _ _ _ (by simp),
        byteLength_append]
      simp [byteLength, Char.utf8Size]
    · have hheads : lineHeads (cs ++ [c]) = lineHeads cs := by
        simp [lineHeads, headsAfter_append, headsAfter, hline]
      rw [hheads, lastLine, rtakeWhile_concat_pos _ _ _ (by simpa using hline),
        byteLength_append, byteLength_append, ← Nat.add_assoc, ← lastLine, ih]

theorem lastLine_eq_nil_iff (text : List Char) :
    lastLine text = [] ↔ text = [] ∨ text.getLast? = some '\n' := by
  induction text using List.reverseRecOn with
  | nil => simp [lastLine]
  | append_singleton cs c _ => by_cases hline : c = '\n' <;> simp [lastLine, hline]

theorem pairwise_headsAfter (start : Nat) (text : List Char) :
    (headsAfter start text).Pairwise (· < ·) := by
  induction text generalizing start with
  | nil => exact .nil
  | cons c cs ih =>
    rw [headsAfter]
    split
    · exact .cons (fun head hmem => (bounds_of_mem_headsAfter hmem).1) (ih _)
    · exact ih _

theorem pairwise_lineHeads (text : List Char) : (lineHeads text).Pairwise (· < ·) :=
  .cons (fun _ hmem => (bounds_of_mem_headsAfter hmem).1) (pairwise_headsAfter 0 text)

end Heads

/-- A position stands before another if it is on an earlier line, or before it on its line. -/
def Position.Before (a b : Position) : Prop :=
  a.line < b.line ∨ a.line = b.line ∧ a.column < b.column

theorem prefix_takeWhile_le {o o' : Nat} (h : o ≤ o') (heads : List Nat) :
    heads.takeWhile (· ≤ o) <+: heads.takeWhile (· ≤ o') := by
  induction heads with
  | nil => exact prefix_rfl
  | cons head heads ih =>
    by_cases hhead : head ≤ o
    · have hhead' : head ≤ o' := Nat.le_trans hhead h
      simpa [hhead, hhead'] using ih
    · simp [hhead]

theorem getLastD_takeWhile_le (o : Nat) (heads : List Nat) :
    (heads.takeWhile (· ≤ o)).getLastD 0 ≤ o := by
  rw [getLastD_eq_getLast?]
  cases hlast : (heads.takeWhile (· ≤ o)).getLast? with
  | none => exact Nat.zero_le _
  | some head =>
    have hmem := mem_of_getLast? hlast
    simpa using all_eq_true.1 all_takeWhile head hmem

namespace Source

variable (s : Source)

/-- The table holds the line starts, and behind them the end of the text unless the last line is
empty. -/
theorem lineStarts_cases :
    ∃ front last, s.heads = front ++ [last] ∧ last + byteLength (lastLine s.text) = s.size ∧
      (last = s.size ∧ s.lineStarts = s.heads ∨
        last < s.size ∧ s.lineStarts = s.heads ++ [s.size]) := by
  have hne : s.heads ≠ [] := by simp [s.heads_eq, lineHeads]
  have hsplit := dropLast_append_getLast hne
  have hlast := getLastD_lineHeads s.text
  rw [← s.heads_eq, ← s.size_eq, getLastD_eq_getLast?, List.getLast?_eq_some_getLast hne,
    Option.getD_some] at hlast
  refine ⟨_, _, hsplit.symm, hlast, ?_⟩
  by_cases hend : s.heads.getLast hne = s.size
  · exact .inl ⟨hend, if_pos (by rw [List.getLast?_eq_some_getLast hne, hend])⟩
  · refine .inr ⟨by omega, if_neg ?_⟩
    rwa [List.getLast?_eq_some_getLast hne, Option.some_inj]

theorem pairwise_heads : s.heads.Pairwise (· < ·) :=
  s.heads_eq ▸ pairwise_lineHeads s.text

/-- The table starts with zero, goes up, and ends with the text. -/
theorem lineStarts_sorted :
    s.lineStarts.head? = some 0 ∧ s.lineStarts.Pairwise (· < ·) ∧
      s.lineStarts.getLast? = some s.size := by
  have hsorted := s.pairwise_heads
  have hzero : s.heads.head? = some 0 := by rw [s.heads_eq]; rfl
  obtain ⟨front, last, hheads, -, ⟨rfl, hstarts⟩ | ⟨hlt, hstarts⟩⟩ := s.lineStarts_cases
  · rw [hstarts]
    exact ⟨hzero, hsorted, by rw [hheads, List.getLast?_concat]⟩
  · rw [hstarts]
    refine ⟨by rw [List.head?_append, hzero]; rfl, ?_, List.getLast?_concat⟩
    refine pairwise_append.2 ⟨hsorted, pairwise_singleton _ _, ?_⟩
    simp only [hheads, pairwise_append, mem_append, mem_singleton] at hsorted ⊢
    rintro head (hmem | rfl) _ rfl
    · exact Nat.lt_trans (hsorted.2.2 head hmem last rfl) hlt
    · exact hlt

/-- The line at an offset is the last of those that start up to it. -/
theorem lineIndex_add_one {o : Nat} (ho : o ≤ s.size) : s.lineIndex o + 1 = rank s.heads o := by
  obtain ⟨hzero, hsorted, -⟩ := s.lineStarts_sorted
  have hfound := searchLast_add_one hsorted hzero o
  have hend := lastLine_eq_nil_iff s.text
  obtain ⟨front, last, hheads, hlast, ⟨rfl, hstarts⟩ | ⟨hlt, hstarts⟩⟩ := s.lineStarts_cases
  · -- the last line is empty, so it is the only one or a newline stands before it
    have hempty : lastLine s.text = [] := by
      by_contra hne
      have hpos := byteLength_pos hne
      omega
    have hle : rank s.heads o ≤ s.heads.length := rank_le_length _ _
    rw [hstarts] at hfound
    rw [lineIndex, if_neg, hstarts, hfound]
    rintro ⟨hpos, -, hnewline⟩
    have htext : s.text = [] := (hend.1 hempty).resolve_right hnewline
    have hone : s.heads.length = 1 := by rw [s.heads_eq, htext]; rfl
    rw [hstarts] at hpos
    omega
  · have hnewline : s.text.getLast? ≠ some '\n' := by
      intro hnewline
      rw [hend.2 (.inr hnewline)] at hlast
      exact Nat.ne_of_lt hlt hlast
    rw [hstarts, rank_concat] at hfound
    have hle : rank s.heads o ≤ s.heads.length := rank_le_length _ _
    have hwhole : rank s.heads s.size = s.heads.length := by
      rw [rank, s.heads_eq, s.size_eq, takeWhile_lineHeads_self]
    simp only [lineIndex, hstarts, length_append, length_singleton]
    rcases Nat.lt_or_eq_of_le ho with ho | rfl
    · rw [if_neg (by omega)] at hfound
      rw [if_neg (by omega)]
      exact hfound
    · -- only the end itself is found at the last entry
      have hpos : 0 < s.heads.length := by rw [hheads, length_append]; exact Nat.succ_pos _
      rw [if_pos ⟨hwhole, Nat.le_refl _⟩, hwhole, Nat.add_right_cancel_iff] at hfound
      rw [hfound, if_pos ⟨hpos, rfl, hnewline⟩, hwhole, Nat.sub_add_cancel hpos]

theorem heads_prefix : s.heads <+: s.lineStarts := by
  rw [lineStarts]
  split
  · exact prefix_rfl
  · exact prefix_append _ _

/-- A position counts the lines that start up to its offset, and the bytes behind the last of
these starts. -/
theorem position_eq_passed (o : Nat) :
    s.position o =
      { file := s.id
        line := (s.heads.takeWhile (· ≤ min o s.size)).length
        column := min o s.size - (s.heads.takeWhile (· ≤ min o s.size)).getLastD 0 + 1
        offset := min o s.size } := by
  have hindex := s.lineIndex_add_one (Nat.min_le_right o s.size)
  rw [rank] at hindex
  have hpassed := (List.takeWhile_prefix (· ≤ min o s.size)).trans s.heads_prefix
  have hstart : s.lineStarts.getD (s.lineIndex (min o s.size)) 0 =
      (s.heads.takeWhile (· ≤ min o s.size)).getLastD 0 := by
    have hlt := Nat.lt_of_succ_le (Nat.le_of_eq hindex)
    rw [getLastD_eq_getLast?, List.getLast?_eq_getElem?, ← hindex, Nat.add_sub_cancel,
      getD_eq_getElem?_getD, prefix_iff_getElem?.1 hpassed _ hlt, List.getElem?_eq_getElem hlt]
  rw [position, hstart, hindex]

/-- Positions follow the offsets of the text. -/
theorem position_before (s : Source) {o o' : Nat} (h : o < o') (hle : o' ≤ s.size) :
    (s.position o).Before (s.position o') := by
  have hfront := prefix_takeWhile_le (Nat.le_of_lt h) s.heads
  have hlast := getLastD_takeWhile_le o s.heads
  simp only [Position.Before, position_eq_passed, Nat.min_eq_left hle,
    Nat.min_eq_left (Nat.le_trans (Nat.le_of_lt h) hle)]
  rcases Nat.lt_or_eq_of_le hfront.length_le with hline | hline
  · exact .inl hline
  · right
    rw [← hfront.eq_of_length hline]
    exact ⟨rfl, by omega⟩

end Source

end DeferLang
