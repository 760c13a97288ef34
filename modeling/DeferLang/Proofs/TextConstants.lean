import DeferLang.Code.Print
import DeferLang.Proofs.InvalidBytes
import DeferLang.Proofs.MeaningPreserved

/-!
# Constants for texts

The constants of a module have different names and different bytes, however many texts
are interned, so that a name stands for one text.  A constant is printed in characters
that need no further escape, and its bytes can be read back from them (`unescape?`).
-/

namespace DeferLang

open List

namespace Code

section Reading

/-- The value of a hexadecimal digit. -/
def hexValue? (c : Char) : Option Nat :=
  if '0' ≤ c ∧ c ≤ '9' then some (c.toNat - '0'.toNat)
  else if 'A' ≤ c ∧ c ≤ 'F' then some (c.toNat - 'A'.toNat + 10)
  else none

/-- The bytes that a quoted text stands for: a backslash and two hexadecimal digits stand for the
byte of that value, and any other ASCII character for itself. -/
def unescape? : List Char → Option (List UInt8)
  | [] => some []
  | c :: rest =>
    if c = '\\' then
      match rest with
      | high :: low :: rest => do
          let value := 16 * (← hexValue? high) + (← hexValue? low)
          return UInt8.ofNat value :: (← unescape? rest)
      | _ => none
    else if c.toNat < 128 then
      (unescape? rest).map (UInt8.ofNat c.toNat :: ·)
    else
      none

/-- Whether a character stands for itself between quotes. -/
def IsPlain (c : Char) : Prop :=
  ' ' ≤ c ∧ c ≤ '~' ∧ c ≠ '"'

instance (c : Char) : Decidable (IsPlain c) :=
  inferInstanceAs (Decidable (_ ∧ _))

theorem hexDigit_spec {n : Nat} (h : n < 16) :
    hexValue? (hexDigit n) = some n ∧ IsPlain (hexDigit n) := by
  revert n
  decide

theorem charOfNat_spec : ∀ n < 127, 32 ≤ n ∧ n ≠ 34 ∧ n ≠ 92 →
    (Char.ofNat n).toNat = n ∧ Char.ofNat n ≠ '\\' ∧ IsPlain (Char.ofNat n) := by
  decide

theorem byteText_spec (b : UInt8) (rest : List Char) :
    unescape? (byteText b ++ rest) = (unescape? rest).map (b :: ·) ∧
      ∀ c ∈ byteText b, IsPlain c := by
  unfold byteText
  dsimp only
  split
  · rename_i h
    obtain ⟨htoNat, hne, hplain⟩ :=
      charOfNat_spec b.toNat (Nat.lt_succ_of_le h.2.1) ⟨h.1, h.2.2⟩
    refine ⟨?_, by simpa using hplain⟩
    rw [singleton_append, unescape?.eq_def]
    dsimp only
    rw [if_neg hne, if_pos (by omega), htoNat, UInt8.ofNat_toNat]
  · have hbyte := b.toNat_lt
    obtain ⟨hhigh, hhighPlain⟩ := hexDigit_spec (n := b.toNat / 16) (by omega)
    obtain ⟨hlow, hlowPlain⟩ := hexDigit_spec (n := b.toNat % 16) (Nat.mod_lt _ (by decide))
    refine ⟨?_, by simp [hhighPlain, hlowPlain]; decide⟩
    change unescape? ('\\' :: hexDigit (b.toNat / 16) :: hexDigit (b.toNat % 16) :: rest) = _
    rw [unescape?, if_pos rfl, hhigh, hlow]
    simp only [Option.bind_eq_bind, Option.bind_some, Nat.div_add_mod, UInt8.ofNat_toNat]
    cases unescape? rest <;> rfl

theorem unescape?_body (c : Constant) :
    unescape? c.body = some c.bytes ∧ ∀ ch ∈ c.body, IsPlain ch := by
  unfold Constant.body
  induction c.bytes with
  | nil => exact ⟨rfl, by simp⟩
  | cons b bytes ih =>
    obtain ⟨hread, hplain⟩ := byteText_spec b (bytes.flatMap byteText)
    rw [flatMap_cons, hread, ih.1]
    exact ⟨rfl, fun ch hch => (mem_append.1 hch).elim (hplain ch) (ih.2 ch)⟩

end Reading

section Interning

variable {m : Module}

theorem constantBytes_inj {text text' : String}
    (h : Module.constantBytes text = Module.constantBytes text') : text = text' := by
  have hbytes := decodeUtf8?_eq_some_iff.2 (append_cancel_right h)
  rw [decodeUtf8?_eq_some_iff.2 rfl] at hbytes
  exact String.toList_inj.1 (Option.some.inj hbytes).symm

/-- A module whose constants have different names and different bytes. -/
structure Module.TellsConstants (m : Module) : Prop where
  names : m.NumbersConstants
  bytes : (m.constants.map Constant.bytes).Nodup

theorem Module.TellsConstants.intern (h : m.TellsConstants) (text : String) :
    (m.intern text).1.TellsConstants := by
  refine ⟨h.names.intern text, ?_⟩
  unfold Module.intern
  dsimp only
  split
  · exact h.bytes
  · rename_i hnone
    rw [map_append, map_singleton]
    refine nodup_append.2 ⟨h.bytes, nodup_singleton _, ?_⟩
    intro bytes hbytes bytes' hbytes'
    obtain ⟨c, hc, rfl⟩ := mem_map.1 hbytes
    rw [mem_singleton.1 hbytes']
    simpa using List.find?_eq_none.1 hnone c hc

/-- Intern texts one after the other, and give the names of their constants. -/
def Module.internAll (m : Module) : List String → Module × List String
  | [] => (m, [])
  | text :: texts =>
    let rest := (m.intern text).1.internAll texts
    (rest.1, (m.intern text).2 :: rest.2)

theorem Module.length_internAll (m : Module) (texts : List String) :
    (m.internAll texts).2.length = texts.length := by
  induction texts generalizing m with
  | nil => rfl
  | cons text texts ih => exact congrArg (· + 1) (ih _)

theorem Module.internAll_spec (h : m.TellsConstants) (texts : List String) :
    (m.internAll texts).1.TellsConstants ∧ m.Extends (m.internAll texts).1 ∧
      ∀ p ∈ texts.zip (m.internAll texts).2,
        ⟨p.2, constantBytes p.1⟩ ∈ (m.internAll texts).1.constants := by
  induction texts generalizing m with
  | nil => exact ⟨h, .refl m, by simp [internAll]⟩
  | cons text texts ih =>
    obtain ⟨htells, hextends, hmem⟩ := ih (h.intern text)
    refine ⟨htells, (m.extends_intern text).trans hextends, fun p hp => ?_⟩
    rcases mem_cons.1 hp with rfl | hp
    · -- texts behind it only add constants
      exact hextends.constants.subset (m.mem_intern text)
    · exact hmem p hp

theorem Module.exists_text_eq {c : Constant} (h : c ∈ m.constants) :
    ∃ before after, m.text = before ++ c.text ++ after := by
  obtain ⟨above, below, hconstants⟩ := append_of_mem h
  have hpart : partText (m.constants.map Constant.text) =
      String.join (above.map Constant.text) ++ c.text ++
        (String.join (below.map Constant.text) ++ "\n") := by
    rw [partText, hconstants, map_append, map_cons, if_neg (by simp), String.join_append,
      String.join_cons]
    simp only [String.append_assoc]
  have htext : ∃ header footer,
      m.text = header ++ partText (m.constants.map Constant.text) ++ footer := by
    unfold Module.text
    exact ⟨_, _, String.append_assoc⟩
  obtain ⟨header, footer, htext⟩ := htext
  refine ⟨header ++ String.join (above.map Constant.text),
    String.join (below.map Constant.text) ++ "\n" ++ footer, ?_⟩
  rw [htext, hpart]
  simp only [String.append_assoc]

end Interning

/-- However many texts are interned in a new module, two of them get one name if and only if they
are the same text.  A name denotes one constant of the module in the end, which holds the text and a
zero.  Its line in the text of the module gives the number of its bytes, and between the quotes only
printable ASCII characters other than the quote, from which these bytes are read back. -/
theorem interned_texts_read_back (name triple : String) (texts : List String) :
    let result := Module.internAll { name := name, targetTriple := triple } texts
    result.2.length = texts.length ∧
      ∀ p ∈ texts.zip result.2,
        (∀ q ∈ texts.zip result.2, p.2 = q.2 ↔ p.1 = q.1) ∧
        ∃ c ∈ result.1.constants, c.name = p.2 ∧ (∀ d ∈ result.1.constants, d.name = p.2 → d = c) ∧
          c.bytes = utf8Bytes p.1.toList ++ [0] ∧
          ∃ before body after, unescape? body = some c.bytes ∧ (∀ ch ∈ body, IsPlain ch) ∧
            result.1.text = before ++ ("@" ++ p.2 ++ " = private unnamed_addr constant [" ++
              Nat.repr c.bytes.length ++ " x i8] c\"" ++ String.ofList body ++ "\", align 1\n") ++
              after := by
  intro result
  have hnew : Module.TellsConstants { name := name, targetTriple := triple } :=
    ⟨by simp [Module.NumbersConstants], List.nodup_nil⟩
  obtain ⟨htells, -, hmem⟩ := Module.internAll_spec hnew texts
  have hnames {c d : Constant} := List.inj_on_of_nodup_map htells.names.nodup (x := c) (y := d)
  refine ⟨Module.length_internAll _ texts, fun p hp => ⟨fun q hq => ?_, ?_⟩⟩
  · refine ⟨fun hname => ?_, fun htext => ?_⟩
    · exact constantBytes_inj (congrArg Constant.bytes (hnames (hmem p hp) (hmem q hq) hname))
    · have hbytes := congrArg Module.constantBytes htext
      exact congrArg Constant.name
        (List.inj_on_of_nodup_map htells.bytes (hmem p hp) (hmem q hq) hbytes)
  · obtain ⟨before, after, htext⟩ := Module.exists_text_eq (hmem p hp)
    obtain ⟨hread, hplain⟩ := unescape?_body ⟨p.2, Module.constantBytes p.1⟩
    exact ⟨_, hmem p hp, rfl, fun d hd hname => hnames hd (hmem p hp) hname, rfl, before, _, after,
      hread, hplain, htext⟩

end Code

end DeferLang
