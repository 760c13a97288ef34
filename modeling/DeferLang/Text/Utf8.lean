import DeferLang.Text.Bytes

/-!
# Reading UTF-8

Bytes are cut into pieces: whole characters, and runs that no character
starts with.  Such a run ends before the first byte that could not continue
it, so that the next piece may be a character again.
-/

namespace DeferLang

/-- How many bytes follow a leading byte, and the range of the first of them. -/
def followers (lead : Nat) : Option (Nat × Nat × Nat) :=
  if lead < 0x80 then some (0, 0x80, 0xBF)
  else if lead < 0xC2 then none
  else if lead < 0xE0 then some (1, 0x80, 0xBF)
  else if lead = 0xE0 then some (2, 0xA0, 0xBF)
  else if lead = 0xED then some (2, 0x80, 0x9F)
  else if lead < 0xF0 then some (2, 0x80, 0xBF)
  else if lead = 0xF0 then some (3, 0x90, 0xBF)
  else if lead < 0xF4 then some (3, 0x80, 0xBF)
  else if lead = 0xF4 then some (3, 0x80, 0x8F)
  else none

/-- The first bytes, at most `count`, that can continue a character, if the first of them
must lie between two bounds. -/
def continuation : Nat → Nat → Nat → List UInt8 → List UInt8
  | 0, _, _, _ => []
  | _ + 1, _, _, [] => []
  | count + 1, low, high, b :: rest =>
    if low ≤ b.toNat ∧ b.toNat ≤ high then b :: continuation count 0x80 0xBF rest else []

/-- The bits of a leading byte that belong to the character. -/
def leadBits (count lead : Nat) : Nat :=
  match count with
  | 0 => lead
  | 1 => lead % 32
  | 2 => lead % 16
  | _ => lead % 8

/-- The number that the bits of a leading byte and its continuation spell. -/
def joinBits (bits : Nat) (tail : List UInt8) : Nat :=
  tail.foldl (fun n b => n * 64 + b.toNat % 64) bits

/-- The character that starts with a byte, if there is one, and the number of further bytes
that belong to it or to the run that is no character. -/
def firstPiece (lead : UInt8) (rest : List UInt8) : Option Char × Nat :=
  match followers lead.toNat with
  | none => (none, 0)
  | some (count, low, high) =>
    let tail := continuation count low high rest
    if tail.length = count then
      (some (Char.ofNat (joinBits (leadBits count lead.toNat) tail)), count)
    else
      (none, tail.length)

/-- The pieces of a sequence of bytes.  A run that is no character is `none`. -/
def utf8Pieces : List UInt8 → List (Option Char)
  | [] => []
  | lead :: rest =>
    let (piece, used) := firstPiece lead rest
    piece :: utf8Pieces (rest.drop used)
termination_by bytes => bytes.length
decreasing_by
  simp only [List.length_drop, List.length_cons]
  omega

/-- The text of bytes that are all UTF-8. -/
def decodeUtf8? (bytes : List UInt8) : Option (List Char) :=
  (utf8Pieces bytes).mapM id

/-- The text of bytes, with a replacement character for every run that is no character. -/
def decodeLossy (bytes : List UInt8) : List Char :=
  (utf8Pieces bytes).map (·.getD '\uFFFD')

/-- The number of bytes in front of the first that is not UTF-8. -/
def validLength (bytes : List UInt8) : Nat :=
  byteLength (((utf8Pieces bytes).takeWhile Option.isSome).filterMap id)

end DeferLang
