/-!
# Byte offsets in a text

Texts are lists of characters, while offsets count UTF-8 bytes.  This module
holds the few operations that connect the two.  An offset that falls inside a
character names no cut of the text, so `dropBytes` and `takeBytes` are partial.
-/

namespace DeferLang

/-- The number of UTF-8 bytes of a text. -/
def byteLength : List Char → Nat
  | [] => 0
  | c :: cs => c.utf8Size + byteLength cs

/-- The text after its first `n` bytes, if a character ends there. -/
def dropBytes : Nat → List Char → Option (List Char)
  | 0, cs => some cs
  | _ + 1, [] => none
  | n + 1, c :: cs =>
    if c.utf8Size ≤ n + 1 then dropBytes (n + 1 - c.utf8Size) cs else none

/-- The first `n` bytes of a text, if a character ends there. -/
def takeBytes : Nat → List Char → Option (List Char)
  | 0, _ => some []
  | _ + 1, [] => none
  | n + 1, c :: cs =>
    if c.utf8Size ≤ n + 1 then
      (takeBytes (n + 1 - c.utf8Size) cs).map (c :: ·)
    else
      none

/-- The text from byte `start` up to byte `stop`, if both are cuts of the text. -/
def sliceBytes (text : List Char) (start stop : Nat) : Option (List Char) :=
  if start ≤ stop then
    (dropBytes start text).bind (takeBytes (stop - start))
  else
    none

/-- The UTF-8 bytes of a text. -/
def utf8Bytes (text : List Char) : List UInt8 :=
  text.flatMap String.utf8EncodeChar

@[simp] theorem byteLength_append (a b : List Char) :
    byteLength (a ++ b) = byteLength a + byteLength b := by
  induction a with
  | nil => simp [byteLength]
  | cons c cs ih => simp [byteLength, ih, Nat.add_assoc]

theorem byteLength_pos {text : List Char} (h : text ≠ []) : 0 < byteLength text := by
  cases text with
  | nil => contradiction
  | cons c cs =>
    have hpos := c.utf8Size_pos
    rw [byteLength]
    omega

theorem byteLength_of_ascii {text : List Char} (h : ∀ c ∈ text, c.utf8Size = 1) :
    byteLength text = text.length := by
  induction text with
  | nil => rfl
  | cons c cs ih =>
    obtain ⟨hc, hcs⟩ := List.forall_mem_cons.1 h
    rw [byteLength, hc, ih hcs, List.length_cons, Nat.add_comm]

theorem byteLength_replicate {c : Char} (h : c.utf8Size = 1) (n : Nat) :
    byteLength (List.replicate n c) = n := by
  rw [byteLength_of_ascii fun c' hc' => List.eq_of_mem_replicate hc' ▸ h, List.length_replicate]

theorem utf8Bytes_append (a b : List Char) : utf8Bytes (a ++ b) = utf8Bytes a ++ utf8Bytes b :=
  List.flatMap_append

theorem length_utf8Bytes (text : List Char) : (utf8Bytes text).length = byteLength text := by
  induction text with
  | nil => rfl
  | cons c cs ih =>
    simp only [utf8Bytes, List.flatMap_cons, List.length_append, byteLength] at ih ⊢
    rw [ih, String.length_utf8EncodeChar]

theorem dropBytes_cons (c : Char) (n : Nat) (cs : List Char) :
    dropBytes (c.utf8Size + n) (c :: cs) = dropBytes n cs := by
  have hpos : 0 < c.utf8Size := c.utf8Size_pos
  obtain ⟨k, hk⟩ : ∃ k, c.utf8Size + n = k + 1 := ⟨c.utf8Size + n - 1, by omega⟩
  rw [hk, dropBytes, if_pos (by omega), ← hk, Nat.add_sub_cancel_left]

theorem takeBytes_cons (c : Char) (n : Nat) (cs : List Char) :
    takeBytes (c.utf8Size + n) (c :: cs) = (takeBytes n cs).map (c :: ·) := by
  have hpos : 0 < c.utf8Size := c.utf8Size_pos
  obtain ⟨k, hk⟩ : ∃ k, c.utf8Size + n = k + 1 := ⟨c.utf8Size + n - 1, by omega⟩
  rw [hk, takeBytes, if_pos (by omega), ← hk, Nat.add_sub_cancel_left]

theorem dropBytes_add (n : Nat) (a b : List Char) :
    dropBytes (byteLength a + n) (a ++ b) = dropBytes n b := by
  induction a with
  | nil => rw [byteLength, Nat.zero_add]; rfl
  | cons c cs ih => rw [byteLength, Nat.add_assoc, List.cons_append, dropBytes_cons, ih]

theorem dropBytes_append (a b : List Char) : dropBytes (byteLength a) (a ++ b) = some b := by
  rw [← Nat.add_zero (byteLength a), dropBytes_add]
  cases b <;> rfl

theorem takeBytes_append (a b : List Char) : takeBytes (byteLength a) (a ++ b) = some a := by
  induction a with
  | nil => cases b <;> rfl
  | cons c cs ih => rw [byteLength, List.cons_append, takeBytes_cons, ih, Option.map_some]

/-- The slice between two cuts of a text is what stands between them. -/
theorem sliceBytes_append (a b c : List Char) :
    sliceBytes (a ++ b ++ c) (byteLength a) (byteLength a + byteLength b) = some b := by
  have hsub : byteLength a + byteLength b - byteLength a = byteLength b := by omega
  rw [sliceBytes, if_pos (by omega), List.append_assoc, dropBytes_append, hsub]
  exact takeBytes_append b c

end DeferLang
