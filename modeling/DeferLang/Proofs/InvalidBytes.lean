import DeferLang.Compile.Load
import DeferLang.Proofs.LinePositions

/-!
# Bytes that are no text

Reading UTF-8 inverts writing it: a first piece is a character exactly if the bytes of the
character stand there (`firstPiece_utf8EncodeChar`, `utf8EncodeChar_of_firstPiece`).  So bytes
are a longest text and, if anything is left, a part that no character starts with, and a file
that is no text is reported at the end of that text (`loadSource_bytes`).

How many replacement characters stand for the rest is left open here.
-/

namespace DeferLang

open List

section Lead

variable {lead : Nat}

theorem followers_of_one (h : lead < 0x80) : followers lead = some (0, 0x80, 0xBF) :=
  if_pos h

theorem followers_of_two (h : 0xC2 ≤ lead) (h' : lead < 0xE0) :
    followers lead = some (1, 0x80, 0xBF) := by
  rw [followers, if_neg (by omega), if_neg (by omega), if_pos h']

/-- The first of two further bytes leaves out what fewer bytes spell, and surrogates. -/
theorem followers_of_three (h : 0xE0 ≤ lead) (h' : lead < 0xF0) :
    followers lead =
      some (2, if lead = 0xE0 then 0xA0 else 0x80, if lead = 0xED then 0x9F else 0xBF) := by
  rw [followers, if_neg (by omega), if_neg (by omega), if_neg (by omega)]
  by_cases hfirst : lead = 0xE0
  · rw [hfirst]; rfl
  by_cases hsurrogate : lead = 0xED
  · rw [hsurrogate]; rfl
  rw [if_neg hfirst, if_neg hsurrogate, if_pos h', if_neg hfirst, if_neg hsurrogate]

/-- The first of three further bytes leaves out what fewer bytes spell, and what no character is. -/
theorem followers_of_four (h : 0xF0 ≤ lead) (h' : lead < 0xF5) :
    followers lead =
      some (3, if lead = 0xF0 then 0x90 else 0x80, if lead = 0xF4 then 0x8F else 0xBF) := by
  rw [followers, if_neg (by omega), if_neg (by omega), if_neg (by omega), if_neg (by omega),
    if_neg (by omega), if_neg (by omega)]
  by_cases hfirst : lead = 0xF0
  · rw [hfirst]; rfl
  by_cases hlast : lead = 0xF4
  · rw [hlast]; rfl
  rw [if_neg hfirst, if_pos (by omega), if_neg hfirst, if_neg hlast]

/-- The four lengths of a character. -/
theorem lead_cases (h : followers lead ≠ none) :
    lead < 0x80 ∨ 0xC2 ≤ lead ∧ lead < 0xE0 ∨ 0xE0 ≤ lead ∧ lead < 0xF0 ∨
      0xF0 ≤ lead ∧ lead < 0xF5 := by
  by_contra hlead
  refine h ?_
  rw [followers, if_neg (by omega)]
  rcases Nat.lt_or_ge lead 0xC2 with hlow | hhigh
  · rw [if_pos hlow]
  · rw [if_neg (by omega), if_neg (by omega), if_neg (by omega), if_neg (by omega),
      if_neg (by omega), if_neg (by omega), if_neg (by omega), if_neg (by omega)]

end Lead

section Further

variable {count low high : Nat} {b : UInt8} {rest : List UInt8}

theorem continuation_cons (h : low ≤ b.toNat ∧ b.toNat ≤ high) :
    continuation (count + 1) low high (b :: rest) = b :: continuation count 0x80 0xBF rest :=
  if_pos h

theorem exists_of_length_continuation
    (h : (continuation (count + 1) low high rest).length = count + 1) :
    ∃ b r, rest = b :: r ∧ (low ≤ b.toNat ∧ b.toNat ≤ high) ∧
      (continuation count 0x80 0xBF r).length = count := by
  cases rest with
  | nil => contradiction
  | cons b r =>
    by_cases hb : low ≤ b.toNat ∧ b.toNat ≤ high
    · rw [continuation_cons hb] at h
      exact ⟨b, r, rfl, hb, Nat.succ.inj h⟩
    · rw [continuation, if_neg hb] at h
      contradiction

end Further

theorem toNat_trail (n : Nat) : (UInt8.ofNat (n % 64 + 128)).toNat = n % 64 + 128 :=
  UInt8.toNat_ofNat_of_lt' (by simp only [UInt8.size]; omega)

theorem trail_bounds (n : Nat) :
    0x80 ≤ (UInt8.ofNat (n % 64 + 128)).toNat ∧ (UInt8.ofNat (n % 64 + 128)).toNat ≤ 0xBF := by
  rw [toNat_trail]
  omega

/-- What is written for a character is read as that character. -/
theorem firstPiece_utf8EncodeChar (c : Char) (rest : List UInt8) :
    ∃ lead tail, String.utf8EncodeChar c = lead :: tail ∧
      firstPiece lead (tail ++ rest) = (some c, tail.length) := by
  have hvalid : c.val.toNat < 0xD800 ∨ 0xDFFF < c.val.toNat ∧ c.val.toNat < 0x110000 := c.valid
  have hchar : Char.ofNat c.val.toNat = c := c.ofNat_toNat
  have hread {lead : UInt8} {count low high : Nat} {tail : List UInt8}
      (hlead : followers lead.toNat = some (count, low, high)) (hcount : tail.length = count)
      (htail : continuation count low high (tail ++ rest) = tail)
      (hbits : joinBits (leadBits count lead.toNat) tail = c.val.toNat) :
      firstPiece lead (tail ++ rest) = (some c, tail.length) := by
    simp only [firstPiece, hlead, htail, hbits, hchar, hcount, if_true]
  rw [String.utf8EncodeChar.eq_1]
  generalize c.val.toNat = v at hvalid hread
  split_ifs with hone htwo hthree
  · have hlead : (UInt8.ofNat v).toNat = v := by rw [UInt8.toNat_ofNat']; omega
    exact ⟨_, _, rfl, hread (followers_of_one (by omega)) rfl rfl hlead⟩
  · have hlead : (UInt8.ofNat (v / 64 % 32 + 192)).toNat = v / 64 + 192 := by
      rw [UInt8.toNat_ofNat']; omega
    refine ⟨_, _, rfl, hread (followers_of_two (by omega) (by omega)) rfl
      (continuation_cons (trail_bounds v)) ?_⟩
    simp only [leadBits, joinBits, foldl_cons, foldl_nil, toNat_trail]
    omega
  · have hlead : (UInt8.ofNat (v / 4096 % 16 + 224)).toNat = v / 4096 + 224 := by
      rw [UInt8.toNat_ofNat']; omega
    have hfirst := toNat_trail (v / 64)
    refine ⟨_, _, rfl, hread (followers_of_three (by omega) (by omega)) rfl
      ((continuation_cons (by split_ifs <;> omega)).trans
        (congrArg _ (continuation_cons (trail_bounds v)))) ?_⟩
    simp only [leadBits, joinBits, foldl_cons, foldl_nil, toNat_trail]
    omega
  · have hlead : (UInt8.ofNat (v / 262144 % 8 + 240)).toNat = v / 262144 + 240 := by
      rw [UInt8.toNat_ofNat']; omega
    have hfirst := toNat_trail (v / 4096)
    refine ⟨_, _, rfl, hread (followers_of_four (by omega) (by omega)) rfl
      ((continuation_cons (by split_ifs <;> omega)).trans (congrArg _
        ((continuation_cons (trail_bounds (v / 64))).trans
          (congrArg _ (continuation_cons (trail_bounds v)))))) ?_⟩
    simp only [leadBits, joinBits, foldl_cons, foldl_nil, toNat_trail]
    omega

theorem toNat_ofNat_of_isValidChar {v : Nat} (h : v.isValidChar) :
    (Char.ofNat v).val.toNat = v := by
  rw [Char.ofNat, dif_pos h]
  rfl

section Spelled

variable {lead a b c : UInt8}

theorem ofNat_eq_of_toNat {n : Nat} {b : UInt8} (h : n = b.toNat) : UInt8.ofNat n = b := by
  rw [h, UInt8.ofNat_toNat]

theorem utf8EncodeChar_one (hlead : lead.toNat < 0x80) :
    String.utf8EncodeChar (Char.ofNat lead.toNat) = [lead] := by
  rw [String.utf8EncodeChar.eq_1, toNat_ofNat_of_isValidChar (.inl (by omega)),
    if_pos (by omega), UInt8.ofNat_toNat]

theorem utf8EncodeChar_two (hlow : 0xC2 ≤ lead.toNat) (hhigh : lead.toNat < 0xE0)
    (ha : 0x80 ≤ a.toNat ∧ a.toNat ≤ 0xBF) :
    String.utf8EncodeChar (Char.ofNat (lead.toNat % 32 * 64 + a.toNat % 64)) = [lead, a] := by
  rw [String.utf8EncodeChar.eq_1, toNat_ofNat_of_isValidChar (.inl (by omega)),
    if_neg (by omega), if_pos (by omega), ofNat_eq_of_toNat (b := lead) (by omega),
    ofNat_eq_of_toNat (b := a) (by omega)]

theorem utf8EncodeChar_three (hlow : 0xE0 ≤ lead.toNat) (hhigh : lead.toNat < 0xF0)
    (ha : 0x80 ≤ a.toNat ∧ a.toNat ≤ 0xBF ∧ (lead.toNat = 0xE0 → 0xA0 ≤ a.toNat) ∧
      (lead.toNat = 0xED → a.toNat ≤ 0x9F)) (hb : 0x80 ≤ b.toNat ∧ b.toNat ≤ 0xBF) :
    String.utf8EncodeChar (Char.ofNat
      ((lead.toNat % 16 * 64 + a.toNat % 64) * 64 + b.toNat % 64)) = [lead, a, b] := by
  rw [String.utf8EncodeChar.eq_1, toNat_ofNat_of_isValidChar (by unfold Nat.isValidChar; omega),
    if_neg (by omega), if_neg (by omega), if_pos (by omega),
    ofNat_eq_of_toNat (b := lead) (by omega), ofNat_eq_of_toNat (b := a) (by omega),
    ofNat_eq_of_toNat (b := b) (by omega)]

theorem utf8EncodeChar_four (hlow : 0xF0 ≤ lead.toNat) (hhigh : lead.toNat < 0xF5)
    (ha : 0x80 ≤ a.toNat ∧ a.toNat ≤ 0xBF ∧ (lead.toNat = 0xF0 → 0x90 ≤ a.toNat) ∧
      (lead.toNat = 0xF4 → a.toNat ≤ 0x8F)) (hb : 0x80 ≤ b.toNat ∧ b.toNat ≤ 0xBF)
    (hc : 0x80 ≤ c.toNat ∧ c.toNat ≤ 0xBF) :
    String.utf8EncodeChar (Char.ofNat
      (((lead.toNat % 8 * 64 + a.toNat % 64) * 64 + b.toNat % 64) * 64 + c.toNat % 64)) =
      [lead, a, b, c] := by
  rw [String.utf8EncodeChar.eq_1, toNat_ofNat_of_isValidChar (by unfold Nat.isValidChar; omega),
    if_neg (by omega), if_neg (by omega), if_neg (by omega),
    ofNat_eq_of_toNat (b := lead) (by omega), ofNat_eq_of_toNat (b := a) (by omega),
    ofNat_eq_of_toNat (b := b) (by omega), ofNat_eq_of_toNat (b := c) (by omega)]

end Spelled

/-- What is read as a character is what is written for it. -/
theorem utf8EncodeChar_of_firstPiece {lead : UInt8} {rest : List UInt8} {c : Char} {used : Nat}
    (h : firstPiece lead rest = (some c, used)) :
    String.utf8EncodeChar c ++ rest.drop used = lead :: rest := by
  cases hlead : followers lead.toNat with
  | none => simp [firstPiece, hlead] at h
  | some range =>
    obtain ⟨count, low, high⟩ := range
    by_cases hcount : (continuation count low high rest).length = count
    · simp only [firstPiece, hlead, if_pos hcount, Prod.mk.injEq, Option.some.injEq] at h
      obtain ⟨rfl, rfl⟩ := h
      rcases lead_cases (by rw [hlead]; exact Option.some_ne_none _) with
        hone | ⟨hlow, hhigh⟩ | ⟨hlow, hhigh⟩ | ⟨hlow, hhigh⟩
      · rw [followers_of_one hone] at hlead
        cases hlead
        exact congrArg (· ++ rest) (utf8EncodeChar_one hone)
      · rw [followers_of_two hlow hhigh] at hlead
        cases hlead
        obtain ⟨a, rest, rfl, ha, -⟩ := exists_of_length_continuation hcount
        rw [continuation_cons ha]
        exact congrArg (· ++ rest) (utf8EncodeChar_two hlow hhigh ha)
      · rw [followers_of_three hlow hhigh] at hlead
        cases hlead
        obtain ⟨a, rest, rfl, ha, hcount⟩ := exists_of_length_continuation hcount
        rw [continuation_cons ha]
        obtain ⟨b, rest, rfl, hb, -⟩ := exists_of_length_continuation hcount
        rw [continuation_cons hb]
        exact congrArg (· ++ rest) (utf8EncodeChar_three hlow hhigh
          (by split_ifs at ha <;> omega) hb)
      · rw [followers_of_four hlow hhigh] at hlead
        cases hlead
        obtain ⟨a, rest, rfl, ha, hcount⟩ := exists_of_length_continuation hcount
        rw [continuation_cons ha]
        obtain ⟨b, rest, rfl, hb, hcount⟩ := exists_of_length_continuation hcount
        rw [continuation_cons hb]
        obtain ⟨c, rest, rfl, hc, -⟩ := exists_of_length_continuation hcount
        rw [continuation_cons hc]
        exact congrArg (· ++ rest) (utf8EncodeChar_four hlow hhigh
          (by split_ifs at ha <;> omega) hb hc)
    · simp [firstPiece, hlead, hcount] at h

theorem utf8Pieces_cons {lead : UInt8} {rest : List UInt8} {piece : Option Char} {used : Nat}
    (h : firstPiece lead rest = (piece, used)) :
    utf8Pieces (lead :: rest) = piece :: utf8Pieces (rest.drop used) := by
  rw [utf8Pieces, h]

theorem utf8Bytes_cons (c : Char) (cs : List Char) :
    utf8Bytes (c :: cs) = String.utf8EncodeChar c ++ utf8Bytes cs :=
  flatMap_cons

theorem utf8Pieces_utf8Bytes_append (text : List Char) (rest : List UInt8) :
    utf8Pieces (utf8Bytes text ++ rest) = text.map some ++ utf8Pieces rest := by
  induction text with
  | nil => rfl
  | cons c cs ih =>
    obtain ⟨lead, tail, hbytes, hpiece⟩ := firstPiece_utf8EncodeChar c (utf8Bytes cs ++ rest)
    rw [utf8Bytes_cons, hbytes, append_assoc, cons_append, utf8Pieces_cons hpiece,
      drop_left, ih, map_cons, cons_append]

/-- Bytes are a text, and what no character starts with if anything is left. -/
theorem exists_utf8Bytes_append (bytes : List UInt8) :
    ∃ valid bad, bytes = utf8Bytes valid ++ bad ∧
      (bad = [] ∨ ∃ pieces, utf8Pieces bad = none :: pieces) := by
  induction hlength : bytes.length using Nat.strong_induction_on generalizing bytes with
  | h n ih =>
    cases bytes with
    | nil => exact ⟨[], [], rfl, .inl rfl⟩
    | cons lead rest =>
      rcases hpiece : firstPiece lead rest with ⟨piece, used⟩
      cases piece with
      | none => exact ⟨[], _, rfl, .inr ⟨_, utf8Pieces_cons hpiece⟩⟩
      | some c =>
        have hshorter : (rest.drop used).length < n := by
          rw [length_cons] at hlength
          rw [length_drop]
          omega
        obtain ⟨valid, bad, hrest, hbad⟩ := ih _ hshorter _ rfl
        refine ⟨c :: valid, bad, ?_, hbad⟩
        rw [← utf8EncodeChar_of_firstPiece hpiece, hrest, utf8Bytes_cons, append_assoc]

theorem mapM_id_eq_some_iff {pieces : List (Option Char)} {text : List Char} :
    pieces.mapM id = some text ↔ pieces = text.map some := by
  induction pieces generalizing text with
  | nil => cases text <;> simp
  | cons piece pieces ih =>
    cases text with
    | nil => cases piece <;> simp [Option.bind_eq_some_iff]
    | cons c cs => cases piece <;> simp [Option.bind_eq_some_iff, ih, and_comm]

/-- Reading accepts the bytes of texts and no others. -/
theorem decodeUtf8?_eq_some_iff {bytes : List UInt8} {text : List Char} :
    decodeUtf8? bytes = some text ↔ utf8Bytes text = bytes := by
  rw [decodeUtf8?, mapM_id_eq_some_iff]
  constructor
  · intro htext
    obtain ⟨valid, bad, rfl, hbad⟩ := exists_utf8Bytes_append bytes
    rw [utf8Pieces_utf8Bytes_append] at htext
    rcases hbad with rfl | ⟨pieces, hpieces⟩
    · rw [utf8Pieces, append_nil, map_inj_right fun _ _ => Option.some.inj] at htext
      rw [htext, append_nil]
    · have hnone : none ∈ text.map some := by
        rw [← htext, hpieces]
        exact mem_append_right _ mem_cons_self
      simp at hnone
  · rintro rfl
    have hpieces := utf8Pieces_utf8Bytes_append text []
    rwa [append_nil, utf8Pieces, append_nil] at hpieces

/-- Texts that start bytes end where the first piece is that is no character. -/
theorem isPrefix_of_append_none {α : Type*} {a b : List α} {rest rest' : List (Option α)}
    (h : a.map some ++ rest = b.map some ++ none :: rest') : a <+: b := by
  induction a generalizing b with
  | nil => exact List.nil_prefix
  | cons x a ih =>
    cases b with
    | nil => simp at h
    | cons y b =>
      rw [map_cons, map_cons, cons_append, cons_append, List.cons.injEq, Option.some.injEq] at h
      exact cons_prefix_cons.2 ⟨h.1, ih h.2⟩

/-- What is read of bytes that are no text: `valid` is the longest text that they start with, and
a replacement character stands behind it. -/
theorem exists_longest_text {bytes : List UInt8} (h : ∀ text, utf8Bytes text ≠ bytes) :
    ∃ valid tail, utf8Bytes valid <+: bytes ∧
      (∀ text, utf8Bytes text <+: bytes → text <+: valid) ∧
      validLength bytes = byteLength valid ∧ decodeLossy bytes = valid ++ '\uFFFD' :: tail := by
  obtain ⟨valid, bad, rfl, hbad⟩ := exists_utf8Bytes_append bytes
  rcases hbad with rfl | ⟨pieces, hpieces⟩
  · exact absurd (append_nil _).symm (h valid)
  · have hall := utf8Pieces_utf8Bytes_append valid bad
    rw [hpieces] at hall
    refine ⟨valid, pieces.map (·.getD '\uFFFD'), prefix_append _ _, ?_, ?_, ?_⟩
    · rintro text ⟨rest, hrest⟩
      rw [← hrest, utf8Pieces_utf8Bytes_append] at hall
      exact isPrefix_of_append_none hall
    · have hsome : (utf8Pieces (utf8Bytes valid ++ bad)).takeWhile Option.isSome =
          valid.map some := by
        rw [hall, takeWhile_append_of_pos (by simp), takeWhile_cons_of_neg (by simp), append_nil]
      rw [validLength, hsome, filterMap_map]
      exact congrArg byteLength filterMap_some
    · rw [decodeLossy, hall, map_append, map_map, map_cons]
      exact congrArg (· ++ _) (map_id valid)

theorem position_of_isPrefix {path : String} {bytes : List UInt8} {valid rest : List Char}
    (h : utf8Bytes valid <+: bytes) :
    (Source.ofText 0 path (valid ++ rest)).position (byteLength valid) =
      { file := 0
        line := (bytes.take (byteLength valid)).count lineFeed + 1
        column := ((bytes.take (byteLength valid)).rtakeWhile (· ≠ lineFeed)).length + 1
        offset := byteLength valid } := by
  have hsize : min (byteLength valid) (byteLength (valid ++ rest)) = byteLength valid := by
    rw [byteLength_append]
    omega
  have hbefore : (Source.ofText 0 path (valid ++ rest)).bytesBefore (byteLength valid) =
      bytes.take (byteLength valid) := by
    obtain ⟨bad, rfl⟩ := h
    simp only [Source.bytesBefore, Source.ofText, hsize]
    rw [← length_utf8Bytes, utf8Bytes_append, take_left, take_left]
  rw [(Source.position_eq_count _ _).1, hbefore]
  exact congrArg _ hsize

/-- Bytes that are UTF-8 are loaded as the text they spell.  Any others are kept as a text with
replacement characters, and one fatal diagnostic points at the end of the longest text they start
with.  Up to there the bytes of the kept text are the given ones, and a character ends there; so the
line is one more than the newlines in front of the place, and the column one more than the bytes
behind the last of them. -/
theorem loadSource_bytes (path : String) (bytes : List UInt8) :
    (∀ text, utf8Bytes text = bytes →
      loadSource path (.ok bytes) = (⟨[.ofText 0 path text]⟩, .ok (.ofText 0 path text))) ∧
    ((∀ text, utf8Bytes text ≠ bytes) →
      ∃ valid tail d anchor,
        utf8Bytes valid <+: bytes ∧ (∀ text, utf8Bytes text <+: bytes → text <+: valid) ∧
        decodeLossy bytes = valid ++ '\uFFFD' :: tail ∧
        loadSource path (.ok bytes) = (⟨[.ofText 0 path (decodeLossy bytes)]⟩, .error d) ∧
        (∀ o, (compileRead o path (.ok bytes)).diagnostics = [d]) ∧
        d.severity = .fatal ∧ d.code = 1002 ∧ d.anchors = [anchor] ∧
        let offset := (utf8Bytes valid).length
        takeBytes offset (decodeLossy bytes) = some valid ∧
        (utf8Bytes (decodeLossy bytes)).take offset = bytes.take offset ∧
        anchor.position =
          { file := 0
            line := (bytes.take offset).count lineFeed + 1
            column := ((bytes.take offset).rtakeWhile (· ≠ lineFeed)).length + 1
            offset := offset }) := by
  constructor
  · rintro text htext
    simp only [loadSource, decodeUtf8?_eq_some_iff.2 htext]
    rfl
  · intro hbytes
    obtain ⟨valid, tail, hvalid, hlongest, hlength, hlossy⟩ := exists_longest_text hbytes
    have hnone : decodeUtf8? bytes = none :=
      Option.eq_none_iff_forall_ne_some.2 fun text htext =>
        hbytes text (decodeUtf8?_eq_some_iff.1 htext)
    let anchor := Anchor.ofSpan (.ofText 0 path (decodeLossy bytes)) ⟨validLength bytes, 1⟩
    refine ⟨valid, tail, LoadFault.toDiagnostic (.notUtf8 path (validLength bytes)) [anchor],
      anchor, hvalid, hlongest, hlossy, ?_, ?_, rfl, rfl, rfl, ?_, ?_, ?_⟩
    · simp only [loadSource, hnone]
      rfl
    · intro o
      simp only [compileRead, loadSource, hnone, Outcome.ofArtifacts, Artifacts.deny]
      split_ifs <;> rfl
    · rw [length_utf8Bytes, hlossy, takeBytes_append]
    · obtain ⟨bad, rfl⟩ := hvalid
      rw [hlossy, utf8Bytes_append, List.take_left, List.take_left]
    · rw [length_utf8Bytes, ← position_of_isPrefix hvalid, ← hlossy, ← hlength]
      rfl

/-- A letter, a newline, and the start of a character of two bytes whose second is missing. -/
theorem loadSource_bytes_cut :
    (∀ text, utf8Bytes text ≠ [97, 10, 0xC3, 0x28]) ∧
      ∃ d anchor, (loadSource "t" (.ok [97, 10, 0xC3, 0x28])).2 = .error d ∧ d.code = 1002 ∧
        d.anchors = [anchor] := by
  have hbytes : ∀ text, utf8Bytes text ≠ [97, 10, 0xC3, 0x28] := fun text htext => by
    have hnone : decodeUtf8? [97, 10, 0xC3, 0x28] = none := by decide +kernel
    rw [decodeUtf8?_eq_some_iff.2 htext] at hnone
    contradiction
  obtain ⟨_, _, d, anchor, _, _, _, hload, _, _, hcode, hanchors, _⟩ :=
    (loadSource_bytes "t" [97, 10, 0xC3, 0x28]).2 hbytes
  exact ⟨hbytes, d, anchor, congrArg Prod.snd hload, hcode, hanchors⟩

end DeferLang
