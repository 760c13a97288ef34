import DeferLang.Proofs.LineTable
import DeferLang.Proofs.LongestMatch
import Mathlib.Data.List.Chain

/-!
# What becomes of every byte of a text

Scanning cuts a text into parts: tokens, blanks, comments and faults.  The spans
of the parts tile the bytes of the text, and every part is the longest match at
its place (`scan_accounts_for_bytes`).
-/

namespace DeferLang

open List

/-- A text and the pieces it is cut into, one after the other. -/
inductive Scans : List Char → List Piece → Prop where
  | nil : Scans [] []
  | cons {c : Char} {cs rest : List Char} {ps : List Piece}
      (hsplit : c :: cs = (Piece.first c cs).text ++ rest) (hrest : Scans rest ps) :
      Scans (c :: cs) (Piece.first c cs :: ps)

/-- Behind the first piece of a text come the pieces of the rest. -/
theorem pieces_of_split {c : Char} {cs rest : List Char}
    (hsplit : c :: cs = (Piece.first c cs).text ++ rest) :
    pieces (c :: cs) = Piece.first c cs :: pieces rest := by
  have hpos : 0 < (Piece.first c cs).text.length :=
    length_pos_iff.2 (Piece.exists_rest_first c cs).1
  have hdrop : cs.drop ((Piece.first c cs).text.length - 1) = rest := by
    rw [← drop_succ_cons (a := c), Nat.sub_add_cancel hpos, hsplit, drop_left]
  rw [pieces_cons, hdrop]

/-- The pieces of a text make up the text. -/
theorem scans_pieces (text : List Char) : Scans text (pieces text) := by
  -- the pieces behind the first one are those of a shorter text
  induction hlength : text.length using Nat.strongRecOn generalizing text with
  | ind n ih =>
    cases text with
    | nil => exact .nil
    | cons c cs =>
      obtain ⟨hne, rest, hsplit⟩ := Piece.exists_rest_first c cs
      have hpos : 0 < (Piece.first c cs).text.length := length_pos_iff.2 hne
      have hlengths := congrArg List.length hsplit
      rw [length_append] at hlengths
      rw [pieces_of_split hsplit]
      exact .cons hsplit (ih rest.length (by omega) rest rfl)

/-- What a part of a text was taken for. -/
inductive Part where
  | token (t : Token)
  | blanks (span : Span)
  | comment (span : Span)
  | fault (e : ScanError)

namespace Part

def span : Part → Span
  | .token t => t.span
  | .blanks span => span
  | .comment span => span
  | .fault e => e.span

def token? : Part → Option Token
  | .token t => some t
  | _ => none

def error? : Part → Option ScanError
  | .fault e => some e
  | _ => none

def isBlanks : Part → Bool
  | .blanks _ => true
  | _ => false

/-- The text `w` at the start of `rest` is what a part takes there.  Tokens, blanks and comments
take the longest match.  A string that does not close gives up its quote, and a character is
unexpected if no rule matches at it. -/
def Takes (w rest : List Char) : Part → Prop
  | .token t =>
    t.kind ≠ .eof ∧ t.lexeme = String.ofList w ∧ t.kind.pattern.Matches w ∧ NoLonger w rest
  | .blanks _ => ScanRule.blanks.pattern.Matches w ∧ NoLonger w rest
  | .comment _ => ScanRule.comment.pattern.Matches w ∧ NoLonger w rest
  | .fault e =>
    match e.fault with
    | .unterminatedString => w = ['"'] ∧
        ∀ (rule : ScanRule) (w' : List Char), w' <+: rest → rule.pattern.Matches w' →
          rule = .openString
    | .loneBang => ScanRule.bang.pattern.Matches w ∧ NoLonger w rest
    | .unexpectedChar c => w = [c] ∧
        ∀ (rule : ScanRule) (w' : List Char), w' <+: rest → ¬rule.pattern.Matches w'
    | .oversizedInt _ => False

/-- A part takes the slice of the text at its span. -/
def Fits (text : List Char) (part : Part) : Prop :=
  ∃ w rest, sliceBytes text part.span.offset part.span.stop = some w ∧
    dropBytes part.span.offset text = some rest ∧ part.Takes w rest

end Part

/-- Spans that follow each other from one offset to another, none of them empty. -/
def Tiles : Nat → List Span → Nat → Prop
  | start, [], stop => start = stop
  | start, span :: spans, stop => span.offset = start ∧ 0 < span.length ∧ Tiles span.stop spans stop

theorem Tiles.offsets {start stop : Nat} {spans : List Span} (h : Tiles start spans stop) :
    start ≤ stop ∧ (∀ span ∈ spans, start ≤ span.offset ∧ span.offset < stop) ∧
      spans.Pairwise fun a b => a.offset < b.offset := by
  induction spans generalizing start with
  | nil =>
    obtain rfl : start = stop := h
    simp
  | cons span spans ih =>
    obtain ⟨hstart, hlength, hrest⟩ := h
    obtain ⟨hle, hbounds, hsorted⟩ := ih hrest
    have hstop : span.stop = span.offset + span.length := rfl
    constructor
    · omega
    constructor
    · intro other hmem
      rcases mem_cons.1 hmem with rfl | hmem
      · omega
      · have hother := hbounds other hmem
        omega
    · refine pairwise_cons.2 ⟨fun other hmem => ?_, hsorted⟩
      have hother := hbounds other hmem
      omega

namespace Piece

/-- What a piece that starts at an offset was taken for. -/
def part (p : Piece) (offset : Nat) : Part :=
  match p.cls with
  | .blank => .blanks (p.span offset)
  | .comment => .comment (p.span offset)
  | .token kind => .token ⟨kind, String.ofList p.text, p.span offset⟩
  | .oversized => .token ⟨.int 0, String.ofList p.text, p.span offset⟩
  | .unterminated => .fault ⟨.unterminatedString, p.span offset⟩
  | .loneBang => .fault ⟨.loneBang, p.span offset⟩
  | .unexpected => .fault ⟨.unexpectedChar (p.text.headD ' '), p.span offset⟩

variable {p : Piece} {text : List Char}

theorem span_part (p : Piece) (offset : Nat) : (p.part offset).span = p.span offset := by
  unfold part
  split <;> rfl

theorem token?_part (p : Piece) (offset : Nat) : (p.part offset).token? = p.token? offset := by
  unfold part token? tokenKind?
  split <;> simp_all [Part.token?]

theorem isBlanks_part (p : Piece) (offset : Nat) :
    (p.part offset).isBlanks = true ↔ p.cls = .blank := by
  unfold part
  split <;> simp_all [Part.isBlanks]

/-- A number that is too large is a token, and a fault besides. -/
theorem error?_part (h : p.Explained text) (offset : Nat) :
    (p.part offset).error? = (p.error? offset).filter fun e => e.fault.code ≠ 2004 := by
  unfold Explained at h
  unfold part error? fault?
  cases hcls : p.cls with
  | unexpected =>
    rw [hcls] at h
    obtain ⟨⟨c, hc⟩, -⟩ := h
    simp [hc, Part.error?, Option.filter_some, ScanFault.code]
  | _ => simp [Part.error?, Option.filter_some, ScanFault.code]

/-- Every piece that has a text takes its text. -/
theorem takes_part (h : p.Explained text) (hne : p.text ≠ []) (offset : Nat) :
    (p.part offset).Takes p.text text := by
  have hend := cls_ne_eof h hne
  unfold Explained at h
  unfold part
  cases hcls : p.cls with
  | token kind =>
    rw [hcls] at h
    exact ⟨fun hkind => hend (hcls.trans (congrArg _ hkind)), rfl, h⟩
  | oversized =>
    rw [hcls] at h
    exact ⟨by simp, rfl, h⟩
  | unexpected =>
    rw [hcls] at h
    obtain ⟨⟨c, hc⟩, hnone⟩ := h
    rw [hc]
    exact ⟨rfl, hnone⟩
  | _ =>
    rw [hcls] at h
    exact h

/-- Blanks end where something else begins. -/
theorem cls_ne_blank_of_next {q : Piece} {rest : List Char} (h : p.Explained (p.text ++ rest))
    (hcls : p.cls = .blank) (hnext : q.Explained rest) (hfront : q.text <+: rest) :
    q.cls ≠ .blank := by
  intro hcls'
  unfold Explained at h hnext
  rw [hcls] at h
  rw [hcls'] at hnext
  obtain ⟨c, v, hc, hall, hp⟩ := Pattern.matches_run_iff.1 h.1
  obtain ⟨d, v', hd, hall', hq⟩ := Pattern.matches_run_iff.1 hnext.1
  -- two runs of blanks in a row would be one longer run
  have hlonger : ScanRule.blanks.pattern.Matches (p.text ++ q.text) := by
    refine Pattern.matches_run_iff.2 ⟨c, v ++ q.text, hc, ?_, ?_⟩
    · simp [hq, hall, hd, hall']
    · rw [hp, cons_append]
  have hle := h.2 .blanks _ ((prefix_append_right_inj _).2 hfront) hlonger
  rw [length_append, hq, length_cons] at hle
  omega

end Piece

/-- The parts of pieces that start at an offset. -/
def partsFrom (offset : Nat) (ps : List Piece) : List Part :=
  (placed offset ps).map fun part => part.2.part part.1

/-- The tokens of pieces that start at an offset, closed by the end of the stream. -/
def tokensFrom : Nat → List Piece → List Token
  | offset, [] => [⟨.eof, "", ⟨offset, 0⟩⟩]
  | offset, p :: ps => (p.token? offset).toList ++ tokensFrom (offset + byteLength p.text) ps

/-- The errors of pieces that start at an offset. -/
def scanErrorsFrom : Nat → List Piece → List ScanError
  | _, [] => []
  | offset, p :: ps =>
    (p.error? offset).toList ++ scanErrorsFrom (offset + byteLength p.text) ps

section Parts

variable {text : List Char} {ps : List Piece}

theorem Scans.tiles (h : Scans text ps) (offset : Nat) :
    Tiles offset ((partsFrom offset ps).map Part.span) (offset + byteLength text) := by
  induction h generalizing offset with
  | nil => rfl
  | @cons c cs rest ps hsplit _ ih =>
    rw [partsFrom, placed, map_cons, map_cons, Piece.span_part, hsplit, byteLength_append,
      ← Nat.add_assoc]
    exact ⟨rfl, byteLength_pos (Piece.exists_rest_first c cs).1, ih _⟩

/-- Every part fits the text, whatever stands before it. -/
theorem Scans.fits (h : Scans text ps) (before : List Char) :
    ∀ part ∈ partsFrom (byteLength before) ps, part.Fits (before ++ text) := by
  induction h generalizing before with
  | nil => simp [partsFrom, placed]
  | @cons c cs rest ps hsplit _ ih =>
    intro part hmem
    rcases mem_cons.1 hmem with rfl | hmem
    · refine ⟨(Piece.first c cs).text, c :: cs, ?_, ?_, ?_⟩
      · rw [Piece.span_part, hsplit, ← append_assoc]
        exact sliceBytes_append _ _ _
      · rw [Piece.span_part]
        exact dropBytes_append _ _
      · exact Piece.takes_part (Piece.explained_first c cs) (Piece.exists_rest_first c cs).1 _
    · have hfits := ih (before ++ (Piece.first c cs).text) part (by rwa [byteLength_append])
      rwa [append_assoc, ← hsplit] at hfits

theorem Scans.tokensFrom_eq (h : Scans text ps) (offset : Nat) :
    tokensFrom offset ps = (placed offset ps).filterMap (fun part => part.2.token? part.1) ++
      [⟨.eof, "", ⟨offset + byteLength text, 0⟩⟩] := by
  induction h generalizing offset with
  | nil => rfl
  | @cons c cs rest ps hsplit _ ih =>
    rw [tokensFrom, placed, filterMap_cons, ih, hsplit, byteLength_append, Nat.add_assoc]
    cases (Piece.first c cs).token? offset <;> simp

theorem tokens_eq (text : List Char) : tokens text = tokensFrom 0 (pieces text) := by
  rw [(scans_pieces text).tokensFrom_eq, tokens, placedFrom_eq, Nat.zero_add (byteLength text)]
  rfl

theorem scanErrors_eq (text : List Char) : scanErrors text = scanErrorsFrom 0 (pieces text) := by
  have hfrom (offset : Nat) (ps : List Piece) : scanErrorsFrom offset ps =
      (placed offset ps).filterMap fun part => part.2.error? part.1 := by
    induction ps generalizing offset with
    | nil => rfl
    | cons p ps ih =>
      rw [scanErrorsFrom, placed, filterMap_cons, ih]
      cases p.error? offset <;> simp
  rw [hfrom, scanErrors, placedFrom_eq, pieces]

/-- The parts that are tokens are the tokens of the pieces. -/
theorem filterMap_token?_partsFrom (offset : Nat) (ps : List Piece) :
    (partsFrom offset ps).filterMap Part.token? =
      (placed offset ps).filterMap fun part => part.2.token? part.1 := by
  simp only [partsFrom, filterMap_map, Function.comp_def, Piece.token?_part]

theorem Scans.errors_eq (h : Scans text ps) (offset : Nat) :
    (scanErrorsFrom offset ps).filter (fun e => e.fault.code ≠ 2004) =
      (partsFrom offset ps).filterMap Part.error? := by
  induction h generalizing offset with
  | nil => rfl
  | @cons c cs rest ps hsplit _ ih =>
    rw [scanErrorsFrom, partsFrom, placed, filter_append, map_cons, filterMap_cons,
      Piece.error?_part (Piece.explained_first c cs), ih]
    cases (Piece.first c cs).error? offset with
    | none => rfl
    | some e => by_cases hcode : e.fault.code = 2004 <;> simp [partsFrom, Option.filter_some, hcode]

theorem Scans.chain (h : Scans text ps) (offset : Nat) :
    (partsFrom offset ps).IsChain fun a b => ¬(a.isBlanks = true ∧ b.isBlanks = true) := by
  induction h generalizing offset with
  | nil => exact .nil
  | @cons c cs rest ps hsplit hrest ih =>
    have htail := ih (offset + byteLength (Piece.first c cs).text)
    cases hrest with
    | nil => exact .singleton _
    | @cons d ds rest ps hsplit' _ =>
      refine .cons_cons (fun hboth => ?_) htail
      have hexplained := Piece.explained_first c cs
      rw [hsplit] at hexplained
      exact Piece.cls_ne_blank_of_next (hsplit ▸ hexplained)
        ((Piece.isBlanks_part _ _).1 hboth.1) (Piece.explained_first d ds)
        ⟨rest, hsplit'.symm⟩ ((Piece.isBlanks_part _ _).1 hboth.2)

end Parts

/-- Scanning accounts for every byte of a text: tokens, blanks, comments and the faults that are
no tokens tile it, each of them the longest match at its place, and the positions of the tokens
go up to the end of the stream. -/
theorem scan_accounts_for_bytes (s : Source) :
    ∃ parts : List Part,
      Tiles 0 (parts.map Part.span) (byteLength s.text) ∧
      (∀ part ∈ parts, part.Fits s.text) ∧
      (parts.IsChain fun a b => ¬(a.isBlanks = true ∧ b.isBlanks = true)) ∧
      tokens s.text =
        parts.filterMap Part.token? ++ [⟨.eof, "", ⟨byteLength s.text, 0⟩⟩] ∧
      (scanErrors s.text).filter (fun e => e.fault.code ≠ 2004) = parts.filterMap Part.error? ∧
      (tokens s.text).Pairwise fun t t' =>
        (s.position t.span.offset).Before (s.position t'.span.offset) := by
  have hscan := scans_pieces s.text
  have htiles := hscan.tiles 0
  have htokens := hscan.tokensFrom_eq 0
  have herrors := hscan.errors_eq 0
  rw [Nat.zero_add] at htiles htokens
  rw [← tokens_eq, ← filterMap_token?_partsFrom] at htokens
  rw [← scanErrors_eq] at herrors
  refine ⟨partsFrom 0 (pieces s.text), htiles, hscan.fits [], hscan.chain 0, htokens, herrors, ?_⟩
  obtain ⟨-, hbounds, hsorted⟩ := htiles.offsets
  rw [List.pairwise_map] at hsorted
  have hspan {part : Part} {t : Token} (h : part.token? = some t) : part.span = t.span := by
    cases part with
    | token t' => rw [← Option.some.inj h]; rfl
    | _ => contradiction
  have hbound {t : Token} (h : t ∈ (partsFrom 0 (pieces s.text)).filterMap Part.token?) :
      t.span.offset < s.size := by
    obtain ⟨part, hpart, ht⟩ := List.mem_filterMap.1 h
    rw [← hspan ht, s.size_eq]
    exact (hbounds _ (List.mem_map_of_mem hpart)).2
  rw [htokens, List.pairwise_append]
  refine ⟨?_, List.pairwise_singleton _ _, ?_⟩
  · have hparts : ((partsFrom 0 (pieces s.text)).filterMap Part.token?).Pairwise
        fun t t' => t.span.offset < t'.span.offset := by
      refine List.pairwise_filterMap.2 (hsorted.imp fun hlt t ht t' ht' => ?_)
      rwa [← hspan ht, ← hspan ht']
    exact hparts.imp_of_mem fun _ ht' hlt => s.position_before hlt (Nat.le_of_lt (hbound ht'))
  · intro t ht t' ht'
    obtain rfl := List.mem_singleton.1 ht'
    rw [← s.size_eq]
    exact s.position_before (hbound ht) (Nat.le_refl _)

end DeferLang
