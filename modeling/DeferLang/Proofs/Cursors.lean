import DeferLang.Proofs.Outline
import DeferLang.Proofs.ParserLogic

/-!
# Cursors that move on

What reading and skipping tokens do to a cursor.  Tokens are only read before the end
of input, and reported errors and given numbers stay (`Cursor.Leads`).  On a text, what
is left stands behind what was read (`Cursor.OnText`).
-/

namespace DeferLang

open List

/-- The kinds of the tokens that are left. -/
def Cursor.kinds (c : Cursor) : List TokenKind :=
  c.rest.map Token.kind

section Cursors

variable {c : Cursor} {kind : TokenKind}

theorem Cursor.head?_kinds (c : Cursor) : c.kinds.head? = c.kind? :=
  List.head?_map

theorem Cursor.getElem?_kinds (c : Cursor) (n : Nat) : c.kinds[n]? = c.kindAt n :=
  List.getElem?_map

/-- Reading a token takes it off the front. -/
theorem Cursor.kinds_advance (h : c.kind? = some kind) (hne : kind ≠ .eof) :
    c.kinds = kind :: c.advance.kinds := by
  obtain ⟨rest, last, nextId, errors, depth⟩ := c
  cases rest with
  | nil => contradiction
  | cons t ts =>
    obtain rfl : t.kind = kind := Option.some.inj h
    simp [kinds, advance, hne]

theorem Cursor.kind?_advance (h : c.kind? = some kind) (hne : kind ≠ .eof) :
    c.advance.kind? = c.kindAt 1 := by
  rw [← Cursor.head?_kinds, ← Cursor.getElem?_kinds, c.kinds_advance h hne,
    List.getElem?_cons_succ, List.head?_eq_getElem?]

theorem Cursor.nextId_advance (c : Cursor) : c.advance.nextId = c.nextId := by
  unfold Cursor.advance
  split
  · rfl
  · split <;> rfl

theorem Cursor.errors_advance (c : Cursor) : c.advance.errors = c.errors := by
  unfold Cursor.advance
  split
  · rfl
  · split <;> rfl

end Cursors

/-- Numbers ascend and lie below the next free one. -/
def Rising (ids : List NodeId) (next : NodeId) : Prop :=
  ids.Pairwise (· < ·) ∧ ∀ id ∈ ids, id < next

namespace Rising

variable {ids : List NodeId} {next : NodeId}

theorem nil (next : NodeId) : Rising [] next :=
  ⟨List.Pairwise.nil, by simp⟩

theorem mono {next' : NodeId} (h : Rising ids next) (hle : next ≤ next') : Rising ids next' :=
  ⟨h.1, fun id hid => Nat.lt_of_lt_of_le (h.2 id hid) hle⟩

/-- The next free number is taken. -/
theorem concat (h : Rising ids next) : Rising (ids ++ [next]) (next + 1) := by
  refine ⟨pairwise_append.2 ⟨h.1, pairwise_singleton _ _, ?_⟩, ?_⟩
  · intro id hid id' hid'
    rw [mem_singleton] at hid'
    rw [hid']
    exact h.2 id hid
  · intro id hid
    rcases mem_append.1 hid with hid | hid
    · exact Nat.lt_succ_of_lt (h.2 id hid)
    · rw [mem_singleton] at hid
      rw [hid]
      exact Nat.lt_succ_self next

/-- Later numbers come behind the earlier ones. -/
theorem append {ids' : List NodeId} {next' : NodeId} (h : Rising ids next) (h' : Rising ids' next')
    (hle : next ≤ next') (hfrom : ∀ id ∈ ids', next ≤ id) : Rising (ids ++ ids') next' := by
  refine ⟨pairwise_append.2 ⟨h.1, h'.1, fun id hid id' hid' => ?_⟩, fun id hid => ?_⟩
  · exact Nat.lt_of_lt_of_le (h.2 id hid) (hfrom id' hid')
  · rcases mem_append.1 hid with hid | hid
    · exact Nat.lt_of_lt_of_le (h.2 id hid) hle
    · exact h'.2 id hid

theorem nodup (h : Rising ids next) : ids.Nodup :=
  h.1.imp fun hlt => Nat.ne_of_lt hlt

end Rising

/-- From `ts` to what is left of it, `ts'`, tokens are read before the end of input. -/
inductive Consumes : List Token → List Token → Prop where
  | refl (ts : List Token) : Consumes ts ts
  | read {t : Token} {ts ts' : List Token} (hne : t.kind ≠ .eof) (h : Consumes ts ts') :
      Consumes (t :: ts) ts'

namespace Consumes

variable {ts ts' ts'' : List Token}

theorem trans (h : Consumes ts ts') (h' : Consumes ts' ts'') : Consumes ts ts'' := by
  induction h with
  | refl => exact h'
  | read hne _ ih => exact .read hne (ih h')

theorem exists_read (h : Consumes ts ts') :
    ∃ read, ts = read ++ ts' ∧ ∀ t ∈ read, t.kind ≠ .eof := by
  induction h with
  | refl ts => exact ⟨[], rfl, forall_mem_nil _⟩
  | @read t ts ts' hne _ ih =>
    obtain ⟨read, rfl, hread⟩ := ih
    exact ⟨t :: read, rfl, forall_mem_cons.2 ⟨hne, hread⟩⟩

theorem suffix (h : Consumes ts ts') : ts' <:+ ts := by
  obtain ⟨read, hread, -⟩ := h.exists_read
  exact ⟨read, hread.symm⟩

end Consumes

section Skipping

theorem consumes_skipStatementIn (braces : Nat) (ts : List Token) (last : Option Span) :
    Consumes ts (Cursor.skipStatementIn braces ts last).1 := by
  fun_induction Cursor.skipStatementIn braces ts last with
  | case1 | case2 => exact .refl _
  | case3 _ _ _ _ heof => exact .read heof (.refl _)
  | case4 _ _ _ _ heof _ _ ih => exact .read heof ih
  | case5 => exact .refl _
  | case6 _ _ _ heof => exact .read heof (.refl _)
  | case7 _ _ _ heof _ _ _ _ ih => exact .read heof ih
  | case8 _ _ _ _ heof _ _ _ ih => exact .read heof ih

theorem consumes_skipItemIn (ts : List Token) (last : Option Span) :
    Consumes ts (Cursor.skipItemIn ts last).1 := by
  fun_induction Cursor.skipItemIn ts last with
  | case1 | case2 => exact .refl _
  | case3 t ts last hitem ih => exact .read (fun heof => hitem (.inl heof)) ih

theorem ParseFault.isFatal_iff {fault : ParseFault} :
    fault.isFatal = true ↔ fault = .nestingTooDeep := by
  cases fault <;> simp [ParseFault.isFatal]

/-- Whether a list of statements ends at a cursor. -/
def Cursor.IsStop (c : Cursor) : Prop :=
  c.kind? = some (.mark .rbrace) ∨ c.atEnd = true

/-- Where statements go on, skipping one reads something. -/
theorem length_skipStatement {c : Cursor} (h : ¬c.IsStop) :
    c.skipStatement.rest.length < c.rest.length := by
  obtain ⟨rest, last, nextId, errors, depth⟩ := c
  change (Cursor.skipStatementIn 0 rest last).1.length < rest.length
  cases rest with
  | nil => exact absurd (.inr rfl) h
  | cons t ts =>
    have heof : t.kind ≠ .eof := fun heof => h (.inr (by simp [Cursor.atEnd, Cursor.kind?, heof]))
    have hclose : t.kind ≠ .mark .rbrace := fun hclose => h (.inl (congrArg some hclose))
    have hskip (braces : Nat) : (Cursor.skipStatementIn braces ts (some t.span)).1.length <
        (t :: ts).length :=
      Nat.lt_succ_of_le (consumes_skipStatementIn braces ts (some t.span)).suffix.length_le
    rw [Cursor.skipStatementIn, if_neg heof]
    split
    · exact Nat.lt_succ_self _
    split
    · exact hskip 1
    · exact hskip 0

/-- An item that cannot be parsed is read at least in part, or skipped from its first token on. -/
theorem length_skipStatement_report {c c' : Cursor} (e : ParseError) (hread : c'.rest <:+ c.rest)
    (hc : ¬c.IsStop) : (c'.report e).skipStatement.rest.length < c.rest.length := by
  have hskip := (consumes_skipStatementIn 0 c'.rest c'.last).suffix
  rcases Nat.lt_or_ge c'.rest.length c.rest.length with hshorter | hsame
  · exact Nat.lt_of_le_of_lt hskip.length_le hshorter
  · -- If the item failed before it read anything, skipping starts where the item did.
    have hrest : c'.rest = c.rest :=
      hread.eq_of_length (Nat.le_antisymm hread.length_le hsame)
    have hgoesOn : ¬(c'.report e).IsStop := by
      simpa [Cursor.IsStop, Cursor.atEnd, Cursor.kind?, Cursor.report, hrest] using hc
    have hlength := length_skipStatement hgoesOn
    rwa [show (c'.report e).rest = c.rest from hrest] at hlength

end Skipping

namespace Cursor

/-- From one cursor to a later one, tokens are read, numbers are given out and errors are added. -/
structure Leads (c c' : Cursor) : Prop where
  consumes : Consumes c.rest c'.rest
  errors : c.errors <+: c'.errors
  nextId : c.nextId ≤ c'.nextId

/-- The numbers given out so far and the tokens left. -/
def weight (c : Cursor) : Nat :=
  c.nextId + c.rest.length

/-- The errors reported so far and the tokens left. -/
def load (c : Cursor) : Nat :=
  c.errors.length + c.rest.length

variable {c c' c'' : Cursor}

theorem load_congr (hrest : c'.rest = c.rest) (herrors : c'.errors = c.errors) :
    c'.load = c.load := by
  rw [load, hrest, herrors, load]

theorem Leads.refl (c : Cursor) : c.Leads c :=
  ⟨.refl _, prefix_refl _, Nat.le_refl _⟩

theorem Leads.trans (h : c.Leads c') (h' : c'.Leads c'') : c.Leads c'' :=
  ⟨h.consumes.trans h'.consumes, h.errors.trans h'.errors, Nat.le_trans h.nextId h'.nextId⟩

theorem Leads.length_le (h : c.Leads c') : c'.rest.length ≤ c.rest.length :=
  h.consumes.suffix.length_le

/-- Where errors are paid for and one token is left over, a token was read. -/
theorem Leads.length_lt (h : c.Leads c') (hload : c'.load < c.load) :
    c'.rest.length < c.rest.length := by
  have herrors := h.errors.length_le
  simp only [load] at hload
  omega

theorem leads_report (c : Cursor) (e : ParseError) : c.Leads (c.report e) :=
  ⟨.refl _, prefix_append _ _, Nat.le_refl _⟩

theorem load_report (c : Cursor) (e : ParseError) : (c.report e).load = c.load + 1 := by
  simp only [load, report, length_append, length_singleton]
  omega

theorem leads_skipStatement (c : Cursor) : c.Leads c.skipStatement :=
  ⟨consumes_skipStatementIn 0 c.rest c.last, prefix_refl _, Nat.le_refl _⟩

theorem leads_skipItem (c : Cursor) : c.Leads c.skipItem :=
  ⟨consumes_skipItemIn c.rest c.last, prefix_refl _, Nat.le_refl _⟩

/-- Skipping gives out no numbers and reports nothing. -/
theorem weight_le_of_skip (h : c.Leads c') (hnext : c'.nextId = c.nextId) : c'.weight ≤ c.weight :=
  Nat.add_le_add (Nat.le_of_eq hnext) h.length_le

theorem load_le_of_skip (h : c.Leads c') (herrors : c'.errors = c.errors) : c'.load ≤ c.load :=
  Nat.add_le_add (Nat.le_of_eq (congrArg List.length herrors)) h.length_le

/-- A token that is not the end of input is read. -/
theorem leads_advance_of_kind {kind : TokenKind} (hkind : c.kind? = some kind) (hne : kind ≠ .eof) :
    c.Leads c.advance ∧ c.advance.weight + 1 = c.weight ∧ c.advance.load + 1 = c.load := by
  obtain ⟨t, ts, hrest, rfl⟩ := exists_of_kind hkind
  rw [advance_eq hrest hne]
  refine ⟨⟨?_, prefix_refl _, Nat.le_refl _⟩, ?_, ?_⟩
  · rw [hrest]
    exact .read hne (.refl ts)
  · simp only [weight, hrest, length_cons]
    omega
  · simp only [load, hrest, length_cons]
    omega

/-- Where tokens are left before the end of input, there is a next one. -/
theorem exists_kind_of_not_atEnd (h : ¬c.atEnd = true) :
    ∃ kind, c.kind? = some kind ∧ kind ≠ .eof := by
  unfold atEnd at h
  cases hkind : c.kind? with
  | none => simp [hkind] at h
  | some kind => exact ⟨kind, rfl, by simpa [hkind] using h⟩

end Cursor

section Cursors

variable {text : List Char} {c : Cursor} {kind : TokenKind} {ts : List Token} {last : Option Span}

/-- The span of the token read last, or the start of the text. -/
def edgeOf (last : Option Span) : Span :=
  last.getD ⟨0, 0⟩

/-- Tokens left to read from a text, and the span read last. -/
structure TokensOn (text : List Char) (rest : List Token) (last : Option Span) : Prop where
  lined : Lined text (edgeOf last).stop rest
  shows : ∀ s, last = some s → s.Shows text

theorem TokensOn.step {t : Token} (h : TokensOn text (t :: ts) last) (hne : t.kind ≠ .eof) :
    TokensOn text ts (some t.span) ∧ (edgeOf last).NotPast t.span ∧
      (edgeOf last).stop ≤ t.span.offset := by
  obtain ⟨hstart, ⟨heof, -⟩ | ⟨-, hshows, -, hrest⟩⟩ := h.lined
  · contradiction
  refine ⟨⟨hrest, fun s hs => Option.some.inj hs ▸ hshows⟩, ⟨?_, ?_⟩, hstart⟩
  · exact Nat.le_trans (Nat.le_add_right _ _) hstart
  · exact Nat.le_trans hstart (Nat.le_of_lt hshows.nonempty)

theorem TokensOn.skipStatementIn {braces : Nat} (h : TokensOn text ts last) :
    TokensOn text (Cursor.skipStatementIn braces ts last).1
        (Cursor.skipStatementIn braces ts last).2 ∧
      (edgeOf last).NotPast (edgeOf (Cursor.skipStatementIn braces ts last).2) := by
  have hstay {ts : List Token} {last : Option Span} (h : TokensOn text ts last) :
      TokensOn text ts last ∧ (edgeOf last).NotPast (edgeOf last) :=
    ⟨h, .refl _⟩
  -- skipping goes on behind a token
  have hgo {t : Token} {ts rest : List Token} {last last' : Option Span}
      (h : TokensOn text (t :: ts) last) (hne : t.kind ≠ .eof)
      (ih : TokensOn text ts (some t.span) →
        TokensOn text rest last' ∧ (edgeOf (some t.span)).NotPast (edgeOf last')) :
      TokensOn text rest last' ∧ (edgeOf last).NotPast (edgeOf last') :=
    ⟨(ih (h.step hne).1).1, (h.step hne).2.1.trans (ih (h.step hne).1).2⟩
  fun_induction Cursor.skipStatementIn braces ts last with
  | case1 | case2 => exact hstay h
  | case3 _ _ _ _ hne => exact hgo h hne hstay
  | case4 _ _ _ _ hne _ _ ih => exact hgo h hne ih
  | case5 => exact hstay h
  | case6 _ _ _ hne => exact hgo h hne hstay
  | case7 _ _ _ hne _ _ _ _ ih => exact hgo h hne ih
  | case8 _ _ _ _ hne _ _ _ ih => exact hgo h hne ih

theorem TokensOn.skipItemIn (h : TokensOn text ts last) :
    TokensOn text (Cursor.skipItemIn ts last).1 (Cursor.skipItemIn ts last).2 ∧
      (edgeOf last).NotPast (edgeOf (Cursor.skipItemIn ts last).2) := by
  fun_induction Cursor.skipItemIn ts last with
  | case1 | case2 => exact ⟨h, .refl _⟩
  | case3 _ _ _ hstop ih =>
    obtain ⟨hts, hedge, -⟩ := h.step fun heof => hstop (.inl heof)
    exact ⟨(ih hts).1, hedge.trans (ih hts).2⟩

namespace Cursor

def edge (c : Cursor) : Span :=
  edgeOf c.last

/-- A cursor on a text: what is left of it stands behind what was read, and its errors point
into it. -/
structure OnText (text : List Char) (c : Cursor) : Prop where
  tokens : TokensOn text c.rest c.last
  errors : ∀ e ∈ c.errors, e.span.Points text

theorem OnText.points_span (h : c.OnText text) : c.span.Points text := by
  have hlined := h.tokens.lined
  unfold span
  cases hrest : c.rest with
  | nil =>
    rw [hrest] at hlined
    contradiction
  | cons t ts =>
    rw [hrest] at hlined
    rcases hlined.2 with ⟨-, hend⟩ | ⟨-, hshows, -, -⟩
    · exact .inr hend
    · exact .inl hshows

theorem OnText.report (h : c.OnText text) {e : ParseError} (he : e.span.Points text) :
    (c.report e).OnText text := by
  refine ⟨h.tokens, fun e' he' => ?_⟩
  rcases mem_append.1 he' with he' | he'
  · exact h.errors e' he'
  · rwa [mem_singleton.1 he']

theorem OnText.skipStatement (h : c.OnText text) :
    c.skipStatement.OnText text ∧ c.edge.NotPast c.skipStatement.edge :=
  ⟨⟨h.tokens.skipStatementIn.1, h.errors⟩, h.tokens.skipStatementIn.2⟩

theorem OnText.skipItem (h : c.OnText text) :
    c.skipItem.OnText text ∧ c.edge.NotPast c.skipItem.edge :=
  ⟨⟨h.tokens.skipItemIn.1, h.errors⟩, h.tokens.skipItemIn.2⟩

theorem OnText.edge_le (h : c.OnText text) : c.edge.stop ≤ byteLength text := by
  cases hlast : c.last with
  | none =>
    rw [edge, hlast]
    exact Nat.zero_le _
  | some s =>
    rw [edge, hlast]
    exact (h.tokens.shows s hlast).stop_le

/-- What is known of a token that is read. -/
theorem OnText.read (h : c.OnText text) (hkind : c.kind? = some kind) (hne : kind ≠ .eof) :
    c.advance.OnText text ∧ c.advance.edge = c.span ∧ c.edge.NotPast c.span ∧
      c.edge.stop ≤ c.span.offset ∧ c.span.Shows text ∧
      ∀ name, kind = .ident name → c.span.Marks text name.toList := by
  obtain ⟨t, ts, hrest, rfl⟩ := exists_of_kind hkind
  have htokens := h.tokens
  rw [hrest] at htokens
  obtain ⟨hts, hedge, hstart⟩ := htokens.step hne
  have hspan : c.span = t.span := by rw [span, hrest]
  obtain ⟨-, ⟨heof, -⟩ | ⟨-, hshows, hmarks, -⟩⟩ := htokens.lined
  · contradiction
  rw [advance_eq hrest hne, hspan]
  exact ⟨⟨hts, h.errors⟩, rfl, hedge, hstart, hshows, hmarks⟩

theorem OnText.advance (h : c.OnText text) :
    c.advance.OnText text ∧ c.edge.NotPast c.advance.edge := by
  unfold Cursor.advance
  split
  · exact ⟨h, .refl _⟩
  · rename_i t ts hrest
    split
    · exact ⟨h, .refl _⟩
    · rename_i hne
      have htokens := h.tokens
      rw [hrest] at htokens
      exact ⟨⟨(htokens.step hne).1, h.errors⟩, (htokens.step hne).2.1⟩

end Cursor

/-- Where something was read, the edge is that of a token. -/
theorem Outline.Row.edge_eq {a : Outline} {before os : List Outline} {start : Nat}
    (h : Row text (before ++ a :: os) start c.edge) (hc : c.OnText text) :
    c.edge.Shows text ∧ c.lastSpan = c.edge := by
  obtain ⟨ha, -, hstop⟩ := h.inRow.of_mem (mem_append_right before mem_cons_self)
  have hlt := ha.shows.nonempty
  cases hlast : c.last with
  | none =>
    have hzero : c.edge.stop = 0 := by rw [Cursor.edge, hlast]; rfl
    omega
  | some s =>
    have hedge : c.edge = s := by rw [Cursor.edge, hlast]; rfl
    rw [hedge, Cursor.lastSpan, hlast]
    exact ⟨hc.tokens.shows s hlast, rfl⟩

end Cursors

end DeferLang
