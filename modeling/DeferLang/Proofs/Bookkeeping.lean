import DeferLang.Proofs.Braces
import DeferLang.Proofs.Grammar
import DeferLang.Proofs.NodeIds

/-!
# The books of the parser

Everything that is proved of all parsers is proved in one pass over them.  A ledger
records what was read from some cursor on: the kinds of the tokens, of which language
they are, the node numbers given out, the tokens that were read and not yet used up by
numbers or errors, and the outlines of what was read.  `Parser.Balanced` says that a
parser leads from an empty ledger to the ledger of its result; `Parser.Follows` says the
same of a part of a parser that goes on with a ledger.

The parser gives out a number only after it has read a token for it, and never gives it
out again, also where what it read is dropped after an error.  It reports an error only
after it has read a token for it, or skips one with it.  An unclosed block is paid for
by its opening brace, so nested blocks that the end of input leaves open all at once
cannot report more than was read.
-/

namespace DeferLang

open List

variable {parts row' : List Outline} {word : Option String}

namespace Parser

open Outline (Row InRow leaf)

variable {α β : Type}

/-- What was read from some cursor on.  The counts are of tokens that can still pay for numbers,
that can still pay for errors, and that were read at all. -/
structure Ledger where
  kinds : List TokenKind
  holds : Prop
  ids : List NodeId
  numbers : Nat
  errors : Nat
  reads : Nat
  row : List Outline
  quiet : Prop

/-- The ledger of a parser that starts. -/
abbrev Ledger.empty : Ledger :=
  ⟨[], True, [], 0, 0, 0, [], True⟩

def Ledger.append (s s' : Ledger) : Ledger :=
  ⟨s.kinds ++ s'.kinds, s.holds ∧ s'.holds, s.ids ++ s'.ids, s.numbers + s'.numbers,
    s.errors + s'.errors, s.reads + s'.reads, s.row ++ s'.row, s.quiet ∧ s'.quiet⟩

/-- A kind of results: of which language they are, their numbers and outlines, how many tokens
they leave unused, and whether they come without a report. -/
structure Category (α : Type) where
  language : Language α
  ids : α → List NodeId
  outlines : α → List Outline
  numbers : Nat
  errors : Nat
  reads : Nat
  quiet : Prop

/-- The ledger of a result. -/
def Category.ledger (A : Category α) (a : α) (ks : List TokenKind) : Ledger :=
  ⟨ks, A.language ks a, A.ids a, A.numbers, A.errors, A.reads, A.outlines a, A.quiet⟩

/-- From `c₀` to `c`, what a ledger records was read.  If `I` holds, that is inside a block. -/
structure At (I : Prop) (c₀ : Cursor) (s : Ledger) (c : Cursor) : Prop where
  leads : c₀.Leads c
  clean : c.errors = c₀.errors →
    s.holds ∧ c₀.kinds = s.kinds ++ c.kinds ∧ c.nextId = c₀.nextId + s.ids.length
  rising : Rising s.ids c.nextId ∧ ∀ id ∈ s.ids, c₀.nextId ≤ id
  numbers : c.weight + s.numbers ≤ c₀.weight
  errors : c.load + s.errors ≤ c₀.load
  reads : c.rest.length + s.reads ≤ c₀.rest.length
  text : ∀ text, c₀.OnText text →
    c.OnText text ∧ c₀.edge.NotPast c.edge ∧ Row text s.row c₀.edge.stop c.edge
  braces : I → SameDepth c₀.rest c.rest
  quiet : s.quiet → c.errors = c₀.errors

/-- Nothing was done since `c₀` that could have to be paid for. -/
def Unread (c₀ c : Cursor) : Prop :=
  c.rest = c₀.rest ∧ c.errors = c₀.errors

/-- Where a parser fails, there is a token left to pay for the error, or nothing was done. -/
structure FailedAt (I : Prop) (c₀ : Cursor) (spare : Nat) (e : ParseError) (c : Cursor) :
    Prop where
  leads : c₀.Leads c
  numbers : c.weight ≤ c₀.weight
  errors : c.load < c₀.load ∨ spare = 0 ∧ Unread c₀ c
  text : ∀ text, c₀.OnText text →
    c.OnText text ∧ c₀.edge.NotPast c.edge ∧ e.span.Points text
  braces : I → e.fault = .nestingTooDeep ∨ SameDepth c₀.rest c.rest

/-- From a cursor, a parser goes on with a ledger. -/
def FollowsAt (I : Prop) (c₀ c : Cursor) (s : Ledger) (m : Parser α)
    (post : α → List TokenKind → Ledger) : Prop :=
  At I c₀ s c → 0 < s.errors ∨ Unread c₀ c →
    Ends m c (fun a c' => ∃ ks, At I c₀ (post a ks) c') (FailedAt I c₀ s.errors)

def Follows (I : Prop) (c₀ : Cursor) (s : Ledger) (m : Parser α)
    (post : α → List TokenKind → Ledger) : Prop :=
  ∀ c, FollowsAt I c₀ c s m post

/-- A parser gives results of a category. -/
def Balanced (I : Prop) (A : Category α) (m : Parser α) : Prop :=
  ∀ c, Follows I c .empty m A.ledger

section Ledgers

variable {I P q : Prop} {c₀ c c' : Cursor} {s s' : Ledger} {kind : TokenKind} {e : ParseError}
  {spare n l r : Nat} {row : List Outline} {ks : List TokenKind} {ids : List NodeId}

theorem At.empty : At I c .empty c where
  leads := .refl c
  clean _ := ⟨trivial, rfl, rfl⟩
  rising := ⟨.nil _, nofun⟩
  numbers := Nat.le_refl _
  errors := Nat.le_refl _
  reads := Nat.le_refl _
  text _ h := ⟨h, .refl _, Nat.le_refl _, nofun⟩
  braces _ := .refl _
  quiet _ := rfl

theorem At.append (h : At I c₀ s c) (h' : At I c s' c') : At I c₀ (s.append s') c' where
  leads := h.leads.trans h'.leads
  clean herrors := by
    -- no error behind both, so none behind the first
    have hmid : c.errors = c₀.errors :=
      (herrors ▸ h'.leads.errors).eq_of_length_le h.leads.errors.length_le
    obtain ⟨hholds, hkinds, hnext⟩ := h.clean hmid
    obtain ⟨hholds', hkinds', hnext'⟩ := h'.clean (herrors.trans hmid.symm)
    refine ⟨⟨hholds, hholds'⟩, ?_, ?_⟩
    · rw [hkinds, hkinds', Ledger.append, append_assoc]
    · rw [hnext', hnext, Ledger.append, length_append, Nat.add_assoc]
  rising := by
    refine ⟨h.rising.1.append h'.rising.1 h'.leads.nextId h'.rising.2, fun id hid => ?_⟩
    rcases mem_append.1 hid with hid | hid
    · exact h.rising.2 id hid
    · exact Nat.le_trans h.leads.nextId (h'.rising.2 id hid)
  numbers := by
    have := h.numbers
    have := h'.numbers
    dsimp only [Ledger.append]
    omega
  errors := by
    have := h.errors
    have := h'.errors
    dsimp only [Ledger.append]
    omega
  reads := by
    have := h.reads
    have := h'.reads
    dsimp only [Ledger.append]
    omega
  text text hc := by
    obtain ⟨hc', hedge, hrow⟩ := h.text text hc
    obtain ⟨hc'', hedge', hrow'⟩ := h'.text text hc'
    exact ⟨hc'', hedge.trans hedge', hrow.append hedge' hrow'⟩
  braces hinner := (h.braces hinner).trans (h'.braces hinner)
  quiet hquiet := (h'.quiet hquiet.2).trans (h.quiet hquiet.1)

/-- Only tokens before the end of input are read. -/
theorem At.eof_notMem (h : At I c₀ s c) (herrors : c.errors = c₀.errors) : .eof ∉ s.kinds := by
  obtain ⟨-, hkinds, -⟩ := h.clean herrors
  obtain ⟨read, hread, hbefore⟩ := h.leads.consumes.exists_read
  have hsplit : read.map Token.kind ++ c.kinds = s.kinds ++ c.kinds := by
    rw [← hkinds, Cursor.kinds, Cursor.kinds, hread, map_append]
  rw [← append_cancel_right hsplit]
  intro heof
  obtain ⟨t, ht, hkind⟩ := mem_map.1 heof
  exact hbefore t ht hkind

/-- A row of outlines can be arranged as another. -/
def Lays (row row' : List Outline) : Prop :=
  ∀ text start edge, Row text row start edge → Row text row' start edge

theorem Lays.refl (row : List Outline) : Lays row row :=
  fun _ _ _ h => h

theorem Lays.of_eq (h : row = row') : Lays row row' :=
  h ▸ .refl row

theorem Lays.sublist (h : row'.Sublist row) : Lays row row' :=
  fun _ _ _ hrow => hrow.sublist h

/-- A row becomes the parts of a node, from its first outline to its last. -/
theorem Lays.join {span : Span} (a : Outline) (mid : List Outline)
    (z : Outline) (hrow : row = a :: (mid ++ [z])) (hspan : span = Span.join a.span z.span)
    (hparts : parts.Sublist (a :: (mid ++ [z]))) : Lays row [.node span none parts] := by
  subst hrow hspan
  intro text start edge h
  have hrow : Row text ([] ++ a :: (mid ++ [z])) start edge := h
  exact hrow.join hparts

/-- What a ledger records can be told in other words, and tokens can be left unused. -/
theorem At.mono {t : Ledger} (h : At I c₀ s c) (hkinds : s.kinds = t.kinds)
    (hholds : s.holds → t.holds) (hids : s.ids = t.ids)
    (hspare : t.numbers ≤ s.numbers ∧ t.errors ≤ s.errors ∧ t.reads ≤ s.reads)
    (hrow : Lays s.row t.row) (hquiet : t.quiet → s.quiet) : At I c₀ t c where
  leads := h.leads
  clean herrors := by
    obtain ⟨hheld, hread, hnext⟩ := h.clean herrors
    exact ⟨hholds hheld, hkinds ▸ hread, hids ▸ hnext⟩
  rising := hids ▸ h.rising
  numbers := Nat.le_trans (Nat.add_le_add_left hspare.1 _) h.numbers
  errors := Nat.le_trans (Nat.add_le_add_left hspare.2.1 _) h.errors
  reads := Nat.le_trans (Nat.add_le_add_left hspare.2.2 _) h.reads
  text text hc := by
    obtain ⟨hc', hedge, hlaid⟩ := h.text text hc
    exact ⟨hc', hedge, hrow text _ _ hlaid⟩
  braces := h.braces
  quiet hq := h.quiet (hquiet hq)

/-- A row becomes the parts of a node that ends with the token read last. -/
theorem At.last {a : Outline} {os : List Outline}
    (h : At I c₀ ⟨ks, P, ids, n, l, r, a :: os, q⟩ c) (hparts : parts.Sublist (a :: os)) :
    At I c₀ ⟨ks, P, ids, n, l, r, [.node (Span.join a.span c.lastSpan) none parts], q⟩ c := by
  refine { h with text := fun text hc => ?_ }
  obtain ⟨hc', hedge, hlaid⟩ := h.text text hc
  have hrow : Row text ([] ++ a :: os) c₀.edge.stop c.edge := hlaid
  obtain ⟨hshows, hlast⟩ := hrow.edge_eq hc'
  rw [hlast]
  exact ⟨hc', hedge, hrow.joinEdge hparts hshows⟩

/-- An error that is found where a parser stands. -/
theorem At.failed (h : At I c₀ s c) (hpaid : 0 < s.errors ∨ Unread c₀ c)
    (hpoints : ∀ text, c₀.OnText text → e.span.Points text) : FailedAt I c₀ s.errors e c where
  leads := h.leads
  numbers := Nat.le_trans (Nat.le_add_right _ _) h.numbers
  errors := by
    have := h.errors
    rcases Nat.eq_zero_or_pos s.errors with hzero | hpos
    · exact .inr ⟨hzero, hpaid.resolve_left (by omega)⟩
    · exact .inl (by omega)
  text text hc := ⟨(h.text text hc).1, (h.text text hc).2.1, hpoints text hc⟩
  braces hinner := .inr (h.braces hinner)

/-- What fails after something was read. -/
theorem FailedAt.after (h : At I c₀ s c) (hpaid : 0 < s.errors ∨ Unread c₀ c)
    (h' : FailedAt I c spare e c') : FailedAt I c₀ s.errors e c' where
  leads := h.leads.trans h'.leads
  numbers := Nat.le_trans h'.numbers (Nat.le_trans (Nat.le_add_right _ _) h.numbers)
  errors := by
    have := h.errors
    rcases h'.errors with hless | ⟨-, hrest, herrors⟩
    · exact .inl (by omega)
    have hload := Cursor.load_congr hrest herrors
    rcases Nat.eq_zero_or_pos s.errors with hzero | hpos
    · obtain ⟨hrest₀, herrors₀⟩ := hpaid.resolve_left (by omega)
      exact .inr ⟨hzero, hrest.trans hrest₀, herrors.trans herrors₀⟩
    · exact .inl (by omega)
  text text hc := by
    obtain ⟨hc', hedge, -⟩ := h.text text hc
    obtain ⟨hc'', hedge', hpoints⟩ := h'.text text hc'
    exact ⟨hc'', hedge.trans hedge', hpoints⟩
  braces hinner := (h'.braces hinner).imp_right (h.braces hinner).trans

/-- Where there was a token left to pay, there is no need for another. -/
theorem FailedAt.ofPaid {spare' : Nat} (h : FailedAt I c₀ spare e c) (hpos : 0 < spare) :
    FailedAt I c₀ spare' e c :=
  { h with errors := .inl (h.errors.resolve_right fun hnone => by omega) }

/-- Whether a token can be read: inside a block, whole blocks are read, but no braces. -/
def MayRead (I : Prop) (kind : TokenKind) : Prop :=
  kind.isPlain = true ∨ kind ≠ .eof ∧ ¬I

theorem MayRead.ne_eof (h : MayRead I kind) : kind ≠ .eof := by
  rcases h with h | h
  · rintro rfl
    contradiction
  · exact h.1

theorem MayRead.braces {t : Token} {ts : List Token} (h : MayRead I t.kind) (hinner : I) :
    SameDepth (t :: ts) ts :=
  .read (h.resolve_right fun hout => hout.2 hinner)

/-- A token that is read, with its name if it is an identifier, can pay for a number and for an
error. -/
theorem At.read (hkind : c.kind? = some kind)
    (hreads : MayRead I kind) (hword : ∀ name, word = some name → kind = .ident name) :
    At I c ⟨[kind], True, [], 1, 1, 1, [.node c.span word []], True⟩ c.advance where
  leads := (Cursor.leads_advance_of_kind hkind hreads.ne_eof).1
  clean _ := ⟨trivial, c.kinds_advance hkind hreads.ne_eof, c.nextId_advance⟩
  rising := ⟨.nil _, nofun⟩
  numbers := Nat.le_of_eq (Cursor.leads_advance_of_kind hkind hreads.ne_eof).2.1
  errors := Nat.le_of_eq (Cursor.leads_advance_of_kind hkind hreads.ne_eof).2.2
  reads := by
    obtain ⟨t, ts, hrest, rfl⟩ := Cursor.exists_of_kind hkind
    rw [Cursor.advance_eq hrest hreads.ne_eof, hrest]
    exact Nat.le_refl _
  text text hc := by
    obtain ⟨hc', hedge', hedge, hstop, hshows, hmarks⟩ := hc.read hkind hreads.ne_eof
    have hempty : Row text [] c.edge.stop c.edge := ⟨Nat.le_refl _, nofun⟩
    rw [hedge']
    refine ⟨hc', hedge, hempty.push (a := .node c.span word []) hedge hstop
      ⟨hshows, fun name hname => hmarks name (hword name hname), ?_⟩⟩
    exact Nat.le_of_lt hshows.nonempty
  braces hinner := by
    obtain ⟨t, ts, hrest, rfl⟩ := Cursor.exists_of_kind hkind
    rw [Cursor.advance_eq hrest hreads.ne_eof, hrest]
    exact hreads.braces hinner
  quiet _ := c.errors_advance

/-- A number costs a token. -/
theorem At.number (h : At I c₀ ⟨ks, P, ids, n + 1, l, r, row, q⟩ c) :
    At I c₀ ⟨ks, P, ids ++ [c.nextId], n, l, r, row, q⟩ { c with nextId := c.nextId + 1 } where
  leads := ⟨h.leads.consumes, h.leads.errors, Nat.le_succ_of_le h.leads.nextId⟩
  clean herrors := by
    obtain ⟨hheld, hread, hnext⟩ := h.clean herrors
    refine ⟨hheld, hread, ?_⟩
    rw [length_append, length_singleton, ← Nat.add_assoc]
    exact congrArg Nat.succ hnext
  rising := by
    refine ⟨h.rising.1.concat, fun id hid => ?_⟩
    rcases mem_append.1 hid with hid | hid
    · exact h.rising.2 id hid
    · rw [mem_singleton.1 hid]
      exact h.leads.nextId
  numbers := by
    have hnumbers : c.weight + (n + 1) ≤ c₀.weight := h.numbers
    have hweight : Cursor.weight { c with nextId := c.nextId + 1 } = c.weight + 1 :=
      Nat.add_right_comm _ _ _
    dsimp only
    omega
  errors := h.errors
  reads := h.reads
  text text hc := by
    obtain ⟨hc', hedge, hrow⟩ := h.text text hc
    exact ⟨⟨hc'.tokens, hc'.errors⟩, hedge, hrow⟩
  braces := h.braces
  quiet := h.quiet

/-- What else is open around a parser does not matter to it. -/
theorem At.redepth {d d' : Nat} (h : At I c₀ s c) :
    At I { c₀ with depth := d } s { c with depth := d' } := by
  refine { h with leads := ⟨h.leads.consumes, h.leads.errors, h.leads.nextId⟩, text := ?_ }
  intro text hc
  obtain ⟨hc', hedge, hrow⟩ := h.text text ⟨hc.tokens, hc.errors⟩
  exact ⟨⟨hc'.tokens, hc'.errors⟩, hedge, hrow⟩

theorem FailedAt.redepth {d d' : Nat} (h : FailedAt I c₀ spare e c) :
    FailedAt I { c₀ with depth := d } spare e { c with depth := d' } := by
  refine { h with leads := ⟨h.leads.consumes, h.leads.errors, h.leads.nextId⟩, text := ?_ }
  intro text hc
  obtain ⟨hc', hedge, hpoints⟩ := h.text text ⟨hc.tokens, hc.errors⟩
  exact ⟨⟨hc'.tokens, hc'.errors⟩, hedge, hpoints⟩

/-- What is skipped after an error. -/
structure Skips (c c' : Cursor) : Prop where
  leads : c.Leads c'
  errors : c'.errors = c.errors
  nextId : c'.nextId = c.nextId
  text : ∀ text, c.OnText text → c'.OnText text ∧ c.edge.NotPast c'.edge

/-- What is dropped after an error keeps its numbers and leaves a gap. -/
theorem At.dropped {c'' : Cursor} (h : At I c₀ s c) (hout : ¬I) (hfail : FailedAt I c spare e c')
    (hskip : Skips (c'.report e) c'') (hload : c''.load ≤ c.load) :
    At I c₀ { s with holds := False, quiet := False } c'' where
  leads := h.leads.trans ((hfail.leads.trans (Cursor.leads_report c' e)).trans hskip.leads)
  clean herrors := by
    have hmore := (h.leads.errors.trans hfail.leads.errors).length_le
    have hlen : (c'.errors ++ [e]).length = c₀.errors.length :=
      congrArg List.length (hskip.errors.symm.trans herrors)
    rw [length_append, length_singleton] at hlen
    omega
  rising := by
    refine ⟨h.rising.1.mono ?_, h.rising.2⟩
    rw [hskip.nextId]
    exact hfail.leads.nextId
  numbers := by
    have hweight := Cursor.weight_le_of_skip hskip.leads hskip.nextId
    have hreport : (c'.report e).weight = c'.weight := rfl
    have := hfail.numbers
    have := h.numbers
    dsimp only
    omega
  errors := Nat.le_trans (Nat.add_le_add_right hload _) h.errors
  reads := by
    have hle := (hfail.leads.trans ((Cursor.leads_report c' e).trans hskip.leads)).length_le
    exact Nat.le_trans (Nat.add_le_add_right hle _) h.reads
  text text hc := by
    obtain ⟨hon, hedge, hrow⟩ := h.text text hc
    obtain ⟨hon', hedge', hpoints⟩ := hfail.text text hon
    obtain ⟨hon'', hedge''⟩ := hskip.text text (hon'.report hpoints)
    exact ⟨hon'', (hedge.trans hedge').trans hedge'', (hrow.mono hedge').mono hedge''⟩
  braces hinner := absurd hinner hout
  quiet := False.elim

/-- An error is reported and paid for, and parsing goes on. -/
theorem At.reported (h : At I c₀ ⟨ks, P, ids, n, l + 1, r, row, q⟩ c)
    (hpoints : ∀ text, c₀.OnText text → e.span.Points text) :
    At I c₀ ⟨ks, False, ids, n, l, r, row, False⟩ (c.report e) where
  leads := h.leads.trans (Cursor.leads_report c e)
  clean herrors := by
    have hmore := h.leads.errors.length_le
    have hlen : (c.errors ++ [e]).length = c₀.errors.length := congrArg List.length herrors
    rw [length_append, length_singleton] at hlen
    omega
  rising := h.rising
  numbers := h.numbers
  errors := by
    have hpaid : c.load + (l + 1) ≤ c₀.load := h.errors
    rw [Cursor.load_report]
    dsimp only
    omega
  reads := h.reads
  text text hc := by
    obtain ⟨hc', hedge, hrow⟩ := h.text text hc
    exact ⟨hc'.report (hpoints text hc), hedge, hrow⟩
  braces := h.braces
  quiet := False.elim

end Ledgers

section Rules

variable {I : Prop} {c₀ c : Cursor} {kind : TokenKind} {s : Ledger} {A : Category α} {m : Parser α}
  {k : α → Parser β} {post : β → List TokenKind → Ledger} {ks ks' : List TokenKind}
  {P q quiet : Prop} {ids : List NodeId} {n l r i j w : Nat} {row : List Outline} {L : Language α}
  {made : α → List NodeId} {outlines : α → List Outline} {p : Parser β}

/-- What goes on behind a token that was read fails only after it. -/
theorem FollowsAt.step {c' : Cursor} {s' : Ledger} {m : Parser β} (h : FollowsAt I c₀ c' s' m post)
    (hpos : 0 < s'.errors) (hat : At I c₀ s c → At I c₀ s' c') (hp : p c = m c') :
    FollowsAt I c₀ c s p post := by
  intro hc _
  unfold Ends
  rw [hp]
  exact (h (hat hc) (.inl hpos)).mono (fun _ _ hok => hok) fun _ _ herr => herr.ofPaid hpos

theorem Balanced.bindAt (hm : Balanced I ⟨L, made, outlines, i, j, w, quiet⟩ m) (hpos : 0 < l + j)
    (hk : ∀ a ks', Follows I c₀ ⟨ks ++ ks', P ∧ L ks' a, ids ++ made a, n + i, l + j, r + w,
      row ++ outlines a, q ∧ quiet⟩ (k a) post) :
    FollowsAt I c₀ c ⟨ks, P, ids, n, l, r, row, q⟩ (m >>= k) post := by
  intro h hpaid
  refine .bind ((hm c c .empty (.inr ⟨rfl, rfl⟩)).mono ?_ fun e c' hfail => .after h hpaid hfail)
  rintro a c' ⟨ks', hat⟩
  exact (hk a ks' c' (h.append hat) (.inl hpos)).mono (fun _ _ hok => hok) fun _ _ herr =>
    herr.ofPaid hpos

theorem Balanced.bind (hm : Balanced I ⟨L, made, outlines, i, j, w, quiet⟩ m) (hpos : 0 < l + j)
    (hk : ∀ a ks', Follows I c₀ ⟨ks ++ ks', P ∧ L ks' a, ids ++ made a, n + i, l + j, r + w,
      row ++ outlines a, q ∧ quiet⟩ (k a) post) :
    Follows I c₀ ⟨ks, P, ids, n, l, r, row, q⟩ (m >>= k) post :=
  fun _ => hm.bindAt hpos hk

theorem Follows.bind {between : α → List TokenKind → Ledger} (hm : Follows I c₀ s m between)
    (hpos : ∀ a ks, 0 < (between a ks).errors)
    (hk : ∀ a ks, Follows I c₀ (between a ks) (k a) post) :
    Follows I c₀ s (m >>= k) post := by
  intro c h hpaid
  refine .bind ((hm c h hpaid).mono ?_ fun _ _ hfail => hfail)
  rintro a c' ⟨ks, hat⟩
  exact (hk a ks c' hat (.inl (hpos a ks))).mono (fun _ _ hok => hok) fun _ _ herr =>
    herr.ofPaid (hpos a ks)

theorem Follows.done {b : β} (ks : List TokenKind) (h : ∀ c, At I c₀ s c → At I c₀ (post b ks) c) :
    Follows I c₀ s (Pure.pure b) post :=
  fun c hat _ => ⟨ks, h c hat⟩

/-- The result of a parser, made of what the ledger records. -/
theorem Follows.pure {a : α} (hkinds : ks = ks') (hholds : P → L ks' a) (hids : ids = made a)
    (hrow : Lays row (outlines a)) (hspare : i ≤ n ∧ j ≤ l ∧ w ≤ r) (hquiet : quiet → q) :
    Follows I c₀ ⟨ks, P, ids, n, l, r, row, q⟩ (Pure.pure a)
      (Category.mk L made outlines i j w quiet).ledger :=
  .done ks' fun _ h => h.mono hkinds hholds hids hspare hrow hquiet

/-- A result that ends with the token read last. -/
theorem Follows.last {f : Span → α} {os : List Outline} (a : Outline) (hkinds : ks = ks')
    (hholds : ∀ span, P → L ks' (f span)) (hids : ∀ span, ids = made (f span))
    (hrow : row = a :: os) (hparts : parts.Sublist (a :: os))
    (houtlines : ∀ span, outlines (f span) = [.node (Span.join a.span span) none parts])
    (hspare : i ≤ n ∧ j ≤ l ∧ w ≤ r) (hquiet : quiet → q) :
    Follows I c₀ ⟨ks, P, ids, n, l, r, row, q⟩ (lastSpan >>= fun span => Pure.pure (f span))
      (Category.mk L made outlines i j w quiet).ledger := by
  intro c h _
  subst hrow
  refine ⟨ks', (h.last hparts).mono hkinds (hholds _) (hids _) hspare (.of_eq ?_) hquiet⟩
  exact (houtlines _).symm

theorem FollowsAt.mono {post' : β → List TokenKind → Ledger} {m : Parser β}
    (h : FollowsAt I c₀ c s m post) (hpost : ∀ b ks c', At I c₀ s c → At I c₀ (post b ks) c' →
      ∃ ks', At I c₀ (post' b ks') c') : FollowsAt I c₀ c s m post' := by
  intro hat hpaid
  refine (h hat hpaid).mono (fun b c' hok => ?_) fun _ _ herr => herr
  obtain ⟨ks, hks⟩ := hok
  exact hpost b ks c' hat hks

theorem FollowsAt.map {f : α → β} {between : α → List TokenKind → Ledger}
    (hm : FollowsAt I c₀ c s m between)
    (hf : ∀ a ks c', At I c₀ (between a ks) c' → At I c₀ (post (f a) ks) c') :
    FollowsAt I c₀ c s (f <$> m) post :=
  fun h hpaid => .map ((hm h hpaid).mono (fun a c' ⟨ks, hat⟩ => ⟨ks, hf a ks c' hat⟩)
    fun _ _ hfail => hfail)

/-- Results can be told in other words. -/
theorem Balanced.map {M : Language β} {made' : β → List NodeId} {outlines' : β → List Outline}
    {i' j' w' : Nat} {quiet' : Prop} {f : α → β}
    (hm : Balanced I ⟨L, made, outlines, i, j, w, quiet⟩ m) (hL : ∀ ks a, L ks a → M ks (f a))
    (hids : ∀ a, made a = made' (f a)) (houtlines : ∀ a, outlines a = outlines' (f a))
    (hspare : i' ≤ i ∧ j' ≤ j ∧ w' ≤ w) (hquiet : quiet' → quiet) :
    Balanced I ⟨M, made', outlines', i', j', w', quiet'⟩ (f <$> m) := by
  refine fun c₀ c => (hm c₀ c).map fun a ks c' hat => ?_
  exact hat.mono rfl (hL ks a) (hids a) hspare (.of_eq (houtlines a)) hquiet

/-- What is read from where a parser starts stands there. -/
theorem FollowsAt.front {M : Language α} {i' j' w' : Nat}
    (h : FollowsAt I c₀ c .empty m (Category.mk L made outlines i j w quiet).ledger)
    (hM : ∀ ks a, L ks a → ks <+: c.kinds → M ks a) (hspare : i' ≤ i ∧ j' ≤ j ∧ w' ≤ w) :
    FollowsAt I c₀ c .empty m (Category.mk M made outlines i' j' w' quiet).ledger := by
  refine h.mono fun a ks c' hstart hat => ⟨ks, ?_⟩
  have hkinds : c₀.kinds = c.kinds := (hstart.clean (hstart.quiet trivial)).2.1
  have hsame := hat.mono (t := ⟨ks, L ks a, made a, i', j', w', outlines a, quiet⟩) rfl id rfl
    hspare (.refl _) id
  refine { hsame with clean := fun herrors => ?_ }
  obtain ⟨hL, hread, hnext⟩ := hat.clean herrors
  exact ⟨hM ks a hL ⟨c'.kinds, hread.symm.trans hkinds⟩, hread, hnext⟩

theorem FollowsAt.of {m : Parser β} (h : Follows I c₀ s m post) : FollowsAt I c₀ c s m post :=
  h c

theorem Follows.ite {cond : Prop} [Decidable cond] {m : Parser β}
    (hm : cond → Follows I c₀ s m post) (hp : ¬cond → Follows I c₀ s p post) :
    Follows I c₀ s (if cond then m else p) post := by
  split
  · exact hm ‹_›
  · exact hp ‹_›

theorem Follows.fail (fault : Found → ParseFault) :
    Follows I c₀ s (Parser.fail fault : Parser β) post :=
  fun _ h hpaid => h.failed hpaid fun text hc => (h.text text hc).1.points_span

theorem Follows.fail_bind (fault : Found → ParseFault) :
    Follows I c₀ s (Parser.fail fault >>= k) post :=
  fun _ h hpaid => h.failed hpaid fun text hc => (h.text text hc).1.points_span

theorem Follows.throwAt {o : Outline} (hmem : o ∈ s.row) {fault : ParseFault} :
    Follows I c₀ s (MonadExcept.throw ⟨fault, o.span⟩ : Parser β) post :=
  fun _ h hpaid => h.failed hpaid fun text hc =>
    .inl ((h.text text hc).2.2.inRow.of_mem hmem).1.shows

theorem Follows.withId {k : NodeId → Parser β} (hpos : 0 < l)
    (hk : ∀ id, Follows I c₀ ⟨ks, P, ids ++ [id], n, l, r, row, q⟩ (k id) post) :
    Follows I c₀ ⟨ks, P, ids, n + 1, l, r, row, q⟩ (freshId >>= k) post :=
  fun c => (hk c.nextId { c with nextId := c.nextId + 1 }).step hpos At.number rfl

theorem FollowsAt.withSpan {k : Span → Parser β} (hk : FollowsAt I c₀ c s (k c.span) post) :
    FollowsAt I c₀ c s (span >>= k) post :=
  hk

theorem Follows.withTokensLeft {k : Nat → Parser β}
    (hk : ∀ rounds, Follows I c₀ s (k rounds) post) :
    Follows I c₀ s (tokensLeft >>= k) post :=
  fun c => hk c.rest.length c

theorem FollowsAt.peek {k : Option TokenKind → Parser β}
    (hk : FollowsAt I c₀ c s (k c.kind?) post) :
    FollowsAt I c₀ c s (kind? >>= k) post :=
  hk

theorem Follows.peek {k : Option TokenKind → Parser β}
    (hk : ∀ c, FollowsAt I c₀ c s (k c.kind?) post) : Follows I c₀ s (kind? >>= k) post :=
  hk

/-- A branch on whether the next token is of a kind. -/
theorem FollowsAt.branch {k : Bool → Parser β}
    (hyes : c.kind? = some kind → FollowsAt I c₀ c s (k true) post)
    (hno : FollowsAt I c₀ c s (k false) post) : FollowsAt I c₀ c s (isAt kind >>= k) post := by
  change FollowsAt I c₀ c s (k (decide (c.kind? = some kind))) post
  by_cases h : c.kind? = some kind
  · rw [decide_eq_true h]
    exact hyes h
  · rw [decide_eq_false h]
    exact hno

theorem Follows.ifAt {m : Parser β} (hm : ∀ c, c.kind? = some kind → FollowsAt I c₀ c s m post)
    (hp : Follows I c₀ s p post) :
    Follows I c₀ s (isAt kind >>= fun found => if found = true then m else p) post :=
  fun c => .branch (hm c) (hp c)

/-- A token is read as a part of what the ledger records. -/
theorem At.push (hkind : c.kind? = some kind) (hreads : MayRead I kind)
    (hword : ∀ name, word = some name → kind = .ident name)
    (h : At I c₀ ⟨ks, P, ids, n, l, r, row, q⟩ c) :
    At I c₀ ⟨ks ++ [kind], P, ids, n + 1, l + 1, r + 1, row ++ [.node c.span word []], q⟩
      c.advance :=
  (h.append (.read hkind hreads hword)).mono rfl And.left (append_nil ids)
    ⟨Nat.le_refl _, Nat.le_refl _, Nat.le_refl _⟩ (.refl _) fun hq => ⟨hq, trivial⟩

/-- Reading a token that was looked at, as an identifier if it is one. -/
theorem FollowsAt.readAs {k : Unit → Parser β}
    (hkind : c.kind? = some kind) (hreads : MayRead I kind)
    (hword : ∀ name, word = some name → kind = .ident name)
    (hk : FollowsAt I c₀ c.advance ⟨ks ++ [kind], P, ids, n + 1, l + 1, r + 1,
      row ++ [.node c.span word []], q⟩ (k ()) post) :
    FollowsAt I c₀ c ⟨ks, P, ids, n, l, r, row, q⟩ (advance >>= k) post :=
  hk.step (Nat.succ_pos l) (At.push hkind hreads hword) rfl

theorem FollowsAt.read {k : Unit → Parser β} (hkind : c.kind? = some kind) (hreads : MayRead I kind)
    (hk : FollowsAt I c₀ c.advance ⟨ks ++ [kind], P, ids, n + 1, l + 1, r + 1,
      row ++ [leaf c.span], q⟩ (k ()) post) :
    FollowsAt I c₀ c ⟨ks, P, ids, n, l, r, row, q⟩ (advance >>= k) post :=
  .readAs hkind hreads (by nofun) hk

/-- What was read can be arranged otherwise. -/
theorem FollowsAt.gap {m : Parser β} (hrow : Lays row row')
    (h : FollowsAt I c₀ c ⟨ks, P, ids, n, l, r, row', q⟩ m post) :
    FollowsAt I c₀ c ⟨ks, P, ids, n, l, r, row, q⟩ m post :=
  fun hat => h (hat.mono rfl id rfl ⟨Nat.le_refl _, Nat.le_refl _, Nat.le_refl _⟩ hrow id)

/-- A token that is read and not kept leaves a gap. -/
theorem FollowsAt.drop {k : Unit → Parser β} (hkind : c.kind? = some kind) (hreads : MayRead I kind)
    (hk : FollowsAt I c₀ c.advance ⟨ks ++ [kind], P, ids, n + 1, l + 1, r + 1, row, q⟩
      (k ()) post) :
    FollowsAt I c₀ c ⟨ks, P, ids, n, l, r, row, q⟩ (advance >>= k) post :=
  .read hkind hreads (.gap (.sublist (sublist_append_left _ _)) hk)

theorem expect_of_kind (hkind : c.kind? = some kind) : expect kind c = .ok c.span c.advance := by
  change (if decide (c.kind? = some kind) = true then _ else _ : Parser Span) c = _
  rw [if_pos (decide_eq_true hkind)]
  rfl

theorem Follows.token {k : Span → Parser β} (hreads : MayRead I kind)
    (hk : ∀ span, Follows I c₀ ⟨ks ++ [kind], P, ids, n + 1, l + 1, r + 1, row ++ [leaf span], q⟩
      (k span) post) :
    Follows I c₀ ⟨ks, P, ids, n, l, r, row, q⟩ (expect kind >>= k) post := by
  intro c
  by_cases hkind : c.kind? = some kind
  · exact (hk c.span c.advance).step (Nat.succ_pos l) (At.push hkind hreads (by nofun))
      (bind_of_ok (expect_of_kind hkind))
  · have hexpect : expect kind c = .error ⟨.expectedToken kind c.found, c.span⟩ c := by
      change (if decide (c.kind? = some kind) = true then _ else _ : Parser Span) c = _
      rw [if_neg (by simpa using hkind)]
      rfl
    intro h hpaid
    unfold Ends
    rw [bind_of_error hexpect]
    exact h.failed hpaid fun text hc => (h.text text hc).1.points_span

/-- A token that is expected, and that leaves a gap. -/
theorem Follows.skip {k : Span → Parser β} (hreads : MayRead I kind)
    (hk : ∀ span, Follows I c₀ ⟨ks ++ [kind], P, ids, n + 1, l + 1, r + 1, row, q⟩ (k span) post) :
    Follows I c₀ ⟨ks, P, ids, n, l, r, row, q⟩ (expect kind >>= k) post :=
  .token hreads fun span c => .gap (.sublist (sublist_append_left _ _)) (hk span c)

theorem FollowsAt.name {k : Ident → Parser β} {name : String} (hkind : c.kind? = some (.ident name))
    (hk : Follows I c₀ ⟨ks ++ [.ident name], P, ids, n + 1, l + 1, r + 1,
      row ++ [Ident.outline ⟨name, c.span⟩], q⟩ (k ⟨name, c.span⟩) post) :
    FollowsAt I c₀ c ⟨ks, P, ids, n, l, r, row, q⟩ (ident >>= k) post := by
  have hident : ident c = .ok ⟨name, c.span⟩ c.advance := by
    unfold ident
    rw [bind_of_ok (m := kind?) (congrArg (EStateM.Result.ok · c) hkind)]
    rfl
  refine (hk c.advance).step (Nat.succ_pos l) ?_ (bind_of_ok hident)
  exact At.push hkind (.inl rfl) fun _ h => congrArg TokenKind.ident (Option.some.inj h)

theorem Follows.name {k : Ident → Parser β}
    (hk : ∀ x, Follows I c₀ ⟨ks ++ [.ident x.name], P, ids, n + 1, l + 1, r + 1,
      row ++ [x.outline], q⟩ (k x) post) :
    Follows I c₀ ⟨ks, P, ids, n, l, r, row, q⟩ (ident >>= k) post := by
  intro c
  by_cases h : ∃ name, c.kind? = some (.ident name)
  · obtain ⟨name, hkind⟩ := h
    exact .name hkind (hk ⟨name, c.span⟩)
  · unfold ident
    rw [bind_assoc]
    refine .peek ?_
    split
    · rename_i name hkind
      exact absurd ⟨name, hkind⟩ h
    · exact .of (.fail_bind _)

/-- The ledger can be told in other words before a parser goes on. -/
theorem Follows.regroup {m : Parser β} {P' q' : Prop} {ids' : List NodeId} {n' l' r' : Nat}
    (h : Follows I c₀ ⟨ks', P', ids', n', l', r', row', q'⟩ m post)
    (hpos : 0 < l') (hkinds : ks = ks') (hholds : P → P') (hids : ids = ids')
    (hspare : n' ≤ n ∧ l' ≤ l ∧ r' ≤ r) (hrow : Lays row row') (hquiet : q' → q) :
    Follows I c₀ ⟨ks, P, ids, n, l, r, row, q⟩ m post :=
  fun c => (h c).step hpos (fun hat => hat.mono hkinds hholds hids hspare hrow hquiet) rfl

/-- The counter of what is open does not matter to the books. -/
theorem Balanced.opened (hm : Balanced I A m) : Balanced I A (opened m) := by
  intro c₀ c h hpaid
  have hinner := hm { c₀ with depth := c.depth + 1 } { c with depth := c.depth + 1 } h.redepth hpaid
  exact .opened (hinner.mono (fun a c' ⟨ks, hat⟩ => ⟨ks, hat.redepth (d := c₀.depth)⟩)
    fun e c' hfail => hfail.redepth (d := c₀.depth))

/-- Where a list goes on, what an item reports is paid for, and so is the report that it could not
be parsed: by a token of the item, or by one that is skipped. -/
theorem FollowsAt.recovering {k : Option α → Parser β}
    (hm : Balanced I ⟨L, made, outlines, i, j, w, quiet⟩ m) (hout : ¬I) (hc : ¬c.IsStop)
    (hsome : ∀ a ks', Follows I c₀ ⟨ks ++ ks', P ∧ L ks' a, ids ++ made a, n, l + 1, r,
      row ++ outlines a, False⟩ (k (some a)) post)
    (hnone : Follows I c₀ ⟨ks, False, ids, n, l + 1, r, row, False⟩ (k none) post) :
    FollowsAt I c₀ c ⟨ks, P, ids, n, l + 1, r, row, q⟩ (recovering m >>= k)
      post := by
  intro h hpaid
  refine .bind (.recovering_or_fatal
    ((hm c c .empty (.inr ⟨rfl, rfl⟩)).mono ?_ fun e c' hfail => ?_))
  · rintro a c' ⟨ks', hat⟩
    refine hsome a ks' c' ((h.append hat).mono rfl id rfl ⟨Nat.le_add_right _ _, ?_, ?_⟩ (.refl _)
      False.elim) (.inl (Nat.succ_pos l))
    · exact Nat.le_add_right _ _
    · exact Nat.le_add_right _ _
  · split
    · exact .after h hpaid hfail
    · refine hnone _ (h.dropped hout hfail ⟨Cursor.leads_skipStatement _, rfl, rfl,
        fun text hc => hc.skipStatement⟩ ?_) (.inl (Nat.succ_pos l))
      rcases hfail.errors with hless | ⟨-, hrest, herrors⟩
      · calc (c'.report e).skipStatement.load
            ≤ (c'.report e).load := Cursor.load_le_of_skip (Cursor.leads_skipStatement _) rfl
          _ = c'.load + 1 := Cursor.load_report c' e
          _ ≤ c.load := hless
      · -- nothing was read, so that a token is skipped
        have hlength := length_skipStatement_report e ⟨[], hrest⟩ hc
        change (c'.errors ++ [e]).length + (c'.report e).skipStatement.rest.length ≤
          c.errors.length + c.rest.length
        rw [herrors, length_append, length_singleton]
        omega

end Rules

end Parser

end DeferLang
