import DeferLang.Proofs.Acceptance
import DeferLang.Proofs.Spelling

/-!
# Printed expressions are read back

The tokens of a printed expression are a derivation of the expression, with no
more levels open at once than in any other derivation of it, because printing
only leaves parentheses out.  So the parser reads a printed expression back, and
with the same numbers, since it numbers the nodes in the order of the tree.
-/

namespace DeferLang

open List

variable {c : Cursor} {e : Expr} {ks : List TokenKind} {levels : Nat} {p q : Precedence}

/-- Tokens in parentheses. -/
def inParens (ks : List TokenKind) : List TokenKind :=
  .mark .lparen :: (ks ++ [.mark .rparen])

/-- Tokens in parentheses if `wrap` holds. -/
def inParensIf (wrap : Bool) (ks : List TokenKind) : List TokenKind :=
  if wrap then inParens ks else ks

namespace Expr

/-- The kinds of the tokens of a printed expression. -/
def printed (outer : Precedence) : Expr → List TokenKind
  | .bool _ _ value => [.keyword (if value then .trueKw else .falseKw)]
  | .int _ _ value => [.int value]
  | .str _ _ value => [.str value]
  | .var _ name => [.ident name.name]
  | .range _ _ bound => .keyword .rangeKw :: inParens (bound.printed .lowest)
  | .field _ _ base name => base.printed .access ++ [.mark .dot, .ident name.name]
  | .binary _ _ op _ left right =>
    let own := op.precedence
    let rightKinds :=
      if right.isBinaryOf own then inParens (right.printed .lowest) else right.printed own
    inParensIf (own.rank < outer.rank) (left.printed own ++ .mark op.mark :: rightKinds)

/-- How many expressions are open at once inside a printed expression. -/
def opened (outer : Precedence) : Expr → Nat
  | .range _ _ bound => bound.opened .lowest + 1
  | .field _ _ base _ => base.opened .access
  | .binary _ _ op _ left right =>
    let own := op.precedence
    let rightOpened :=
      if right.isBinaryOf own then right.opened .lowest + 1 else right.opened own
    max (left.opened own) rightOpened + if own.rank < outer.rank then 1 else 0
  | _ => 0

/-- The names, numbers and strings of an expression can be spelled. -/
def Writable : Expr → Prop
  | .bool _ _ _ => True
  | .int _ _ value => (TokenKind.int value).Written
  | .str _ _ value => (TokenKind.str value).Written
  | .var _ name => (TokenKind.ident name.name).Written
  | .binary _ _ _ _ left right => left.Writable ∧ right.Writable
  | .field _ _ base name => base.Writable ∧ (TokenKind.ident name.name).Written
  | .range _ _ bound => bound.Writable

end Expr

section Spelling

theorem toList_symbol (op : BinOp) : op.symbol.toList = op.mark.chars := by
  cases op <;> rfl

theorem spells_inParens {text : List Char} (h : Spells text ks) :
    Spells ('(' :: (text ++ [')'])) (inParens ks) := by
  have hclose : Spells [')'] [.mark .rparen] := spells_mark .rparen
  exact .cons_mark rfl rfl (h.before rfl hclose)

theorem spells_parenthesizedIf {text : String} (wrap : Bool) (h : Spells text.toList ks) :
    Spells (parenthesizedIf wrap text).toList (inParensIf wrap ks) := by
  cases wrap with
  | false => exact h
  | true => simpa [parenthesizedIf, inParensIf] using spells_inParens h

/-- A printed expression is scanned into its tokens. -/
theorem Expr.Writable.spells (h : e.Writable) (outer : Precedence) :
    Spells (e.formatAt outer).toList (e.printed outer) := by
  induction e generalizing outer with
  | bool id span value =>
    cases value with
    | true => exact spells_keyword .trueKw
    | false => exact spells_keyword .falseKw
  | int id span value => exact spells_int h
  | str id span value => simpa [Expr.formatAt, Expr.printed] using spells_str h
  | var id name => exact spells_ident h
  | range id span bound ih =>
    have hspells := (spells_keyword .rangeKw).before rfl (spells_inParens (ih h .lowest))
    simpa [Expr.formatAt, Expr.printed, Keyword.text] using hspells
  | field id span base name ih =>
    have hdot := Spells.cons_mark (m := .dot) rfl rfl (spells_ident h.2)
    simpa [Expr.formatAt, Expr.printed] using (ih h.1 .access).before rfl hdot
  | binary id span op opSpan left right ihLeft ihRight =>
    have hright : Spells (if right.isBinaryOf op.precedence then
          "(" ++ right.formatAt .lowest ++ ")" else right.formatAt op.precedence).toList
        (if right.isBinaryOf op.precedence then inParens (right.printed .lowest)
          else right.printed op.precedence) := by
      split
      · simpa using spells_inParens (ihRight h.2 .lowest)
      · exact ihRight h.2 op.precedence
    have hop := (spells_mark op.mark).before rfl (hright.cons_blank (c := ' ') rfl)
    have hall := (ihLeft h.1 op.precedence).before rfl (hop.cons_blank (c := ' ') rfl)
    rw [Expr.formatAt, Expr.printed]
    refine spells_parenthesizedIf _ ?_
    simpa [toList_symbol] using hall

end Spelling

namespace Precedence

/-- What binds next tighter. -/
def next : Precedence → Precedence
  | .lowest => .conjunction
  | .conjunction => .comparison
  | .comparison => .additive
  | .additive => .multiplicative
  | .multiplicative => .access
  | .access => .access

theorem eq_of_rank_eq (h : p.rank = q.rank) : p = q := by
  cases p <;> cases q <;> first | rfl | contradiction

theorem rank_next_of_lt (h : p.rank < q.rank) : p.next.rank = p.rank + 1 := by
  cases p <;> first | rfl | (cases q <;> contradiction)

end Precedence

theorem BinOp.rank_next (op : BinOp) : op.precedence.next.rank = op.precedence.rank + 1 := by
  cases op <;> rfl

namespace Grammar

variable {L : Language Expr} {ks : List TokenKind} {e : Expr}

/-- The expressions that bind at least as tightly as a precedence. -/
def Level (L : Language Expr) : Precedence → Language Expr
  | .lowest => Conjunction L
  | .conjunction => Conjunction L
  | .comparison => Comparison L
  | .additive => Sum L
  | .multiplicative => Term L
  | .access => Access L

theorem level_precedence (op : BinOp) :
    Level L op.precedence = Chain op.precedence (Level L op.precedence.next) := by
  cases op <;> rfl

theorem level_of_next (h : Level L p.next ks e) : Level L p ks e := by
  cases p with
  | lowest | access => exact h
  | conjunction | comparison | additive | multiplicative => exact .operand h

theorem Level.mono (h : Level L q ks e) (hle : p.rank ≤ q.rank) :
    Level L p ks e := by
  generalize hgap : q.rank - p.rank = gap
  induction gap generalizing p with
  | zero =>
    obtain rfl := Precedence.eq_of_rank_eq (p := p) (q := q) (by omega)
    exact h
  | succ gap ih =>
    have hnext := Precedence.rank_next_of_lt (p := p) (q := q) (by omega)
    exact level_of_next (ih (by omega) (by omega))

theorem level_of_primary (p : Precedence) (h : Primary L ks e) : Level L p ks e :=
  Level.mono (q := .access) (.primary h) (by cases p <;> decide)

end Grammar

section Derivations

open Grammar

variable {e : Expr} {p q : Precedence}

/-- Only operators of one precedence are printed differently under it and the next one. -/
theorem Expr.printed_next (hnext : p.next.rank = p.rank + 1) (h : e.isBinaryOf p = false) :
    e.printed p = e.printed p.next ∧ e.opened p = e.opened p.next := by
  cases e with
  | binary id span op opSpan left right =>
    have hne : op.precedence.rank ≠ p.rank := by
      intro hrank
      rw [Expr.isBinaryOf, Precedence.eq_of_rank_eq hrank] at h
      simp at h
    have hiff : op.precedence.rank < p.rank ↔ op.precedence.rank < p.next.rank := by
      omega
    simp only [Expr.printed, Expr.opened, hiff]
    trivial
  | _ => exact ⟨rfl, rfl⟩

/-- A printed expression is a derivation of the expression. -/
theorem level_printed {n : Nat} (e : Expr) (outer : Precedence) (h : e.opened outer ≤ n) :
    Level (exprAt n) outer (e.printed outer) e := by
  induction e generalizing outer n with
  | bool id span value =>
    cases value with
    | true => exact level_of_primary outer (.yes id span)
    | false => exact level_of_primary outer (.no id span)
  | int id span value => exact level_of_primary outer (.int id span value)
  | str id span value => exact level_of_primary outer (.str id span value)
  | var id name => exact level_of_primary outer (.var id name)
  | range id span bound ih =>
    cases n with
    | zero => simp [Expr.opened] at h
    | succ n =>
      have hbound : exprAt (n + 1) (bound.printed .lowest) bound :=
        ih .lowest (Nat.le_of_succ_le_succ h)
      exact level_of_primary outer (.range id span hbound)
  | field id span base name ih =>
    have hbase : Access (exprAt n) (base.printed .access) base := ih .access h
    exact Level.mono (q := .access) (.field id span name hbase) (by cases outer <;> decide)
  | binary id span op opSpan left right ihLeft ihRight =>
    -- the operation without parentheses around it
    have hown {n : Nat} (h : max (left.opened op.precedence) (if right.isBinaryOf op.precedence
        then right.opened .lowest + 1 else right.opened op.precedence) ≤ n) :
        Level (exprAt n) op.precedence (left.printed op.precedence ++ .mark op.mark ::
          (if right.isBinaryOf op.precedence then inParens (right.printed .lowest)
            else right.printed op.precedence)) (.binary id span op opSpan left right) := by
      have hleft := ihLeft (n := n) op.precedence (by omega)
      rw [level_precedence] at hleft ⊢
      refine .binary id span opSpan rfl hleft ?_
      by_cases hbinary : right.isBinaryOf op.precedence = true
      · rw [if_pos hbinary] at h ⊢
        cases n with
        | zero => omega
        | succ n =>
          have hright : exprAt (n + 1) (right.printed .lowest) right :=
            ihRight .lowest (by omega)
          exact level_of_primary _ (.paren hright)
      · rw [if_neg hbinary] at h ⊢
        obtain ⟨hprinted, hopened⟩ := Expr.printed_next op.rank_next (Bool.eq_false_iff.2 hbinary)
        rw [hprinted]
        exact ihRight _ (by omega)
    rw [Expr.opened] at h
    rw [Expr.printed]
    by_cases hwrap : op.precedence.rank < outer.rank
    · rw [if_pos hwrap] at h
      rw [decide_eq_true hwrap]
      cases n with
      | zero => omega
      | succ n =>
        have hinner : Conjunction (exprAt n) _ _ :=
          (hown (n := n) (by omega)).mono (p := .lowest) (Nat.zero_le _)
        exact level_of_primary outer (.paren hinner)
    · rw [decide_eq_false hwrap]
      exact (hown (by omega)).mono (by omega)

theorem Expr.opened_mono (e : Expr) (hle : p.rank ≤ q.rank) : e.opened p ≤ e.opened q := by
  cases e with
  | binary id span op opSpan left right =>
    refine Nat.add_le_add_left ?_ _
    by_cases hwrap : op.precedence.rank < p.rank
    · have hwrap' : op.precedence.rank < q.rank := by omega
      simp [hwrap, hwrap']
    · rw [if_neg hwrap]
      exact Nat.zero_le _
  | _ => exact Nat.le_refl _

theorem Expr.opened_le_lowest (e : Expr) (p : Precedence) : e.opened p ≤ e.opened .lowest + 1 := by
  cases e with
  | binary id span op opSpan left right =>
    refine Nat.add_le_add_left (m := 1) ?_ _
    split <;> omega
  | _ => exact Nat.le_succ _

/-- An operation is in parentheses where something tighter is expected. -/
theorem Expr.opened_of_isBinaryOf (h : e.isBinaryOf p = true) (hlt : p.rank < q.rank) :
    e.opened q = e.opened .lowest + 1 := by
  cases e with
  | binary id span op opSpan left right =>
    obtain rfl : op.precedence = p := by simpa [Expr.isBinaryOf] using h
    have hlowest : ¬op.precedence.rank < Precedence.lowest.rank := Nat.not_lt_zero _
    rw [Expr.opened, Expr.opened, if_pos hlt, if_neg hlowest]
  | _ => contradiction

section Opened

variable {L : Language Expr} {ks : List TokenKind} {n : Nat}
  (hexpr : ∀ ks e, L ks e → e.opened .lowest + 1 ≤ n)
include hexpr

theorem opened_le_of_primary (h : Primary L ks e) (p : Precedence) : e.opened p ≤ n := by
  cases h with
  | range id span hbound => exact hexpr _ _ hbound
  | paren he => exact Nat.le_trans (e.opened_le_lowest p) (hexpr _ _ he)
  | _ => exact Nat.zero_le n

theorem opened_le_of_access (h : Access L ks e) (p : Precedence) : e.opened p ≤ n := by
  induction h generalizing p with
  | primary h => exact opened_le_of_primary hexpr h p
  | field id span name h ih => exact ih .access

omit hexpr

/-- A right operand of the same precedence was in parentheses when it was read. -/
theorem opened_le_of_chain {level : Precedence} (hrank : level.next.rank = level.rank + 1)
    (hoperand : ∀ ks e, L ks e → e.opened level.next ≤ n) (h : Chain level L ks e) :
    e.opened level ≤ n := by
  have hlevel : level.rank ≤ level.next.rank := by omega
  induction h with
  | operand h => exact Nat.le_trans (Expr.opened_mono _ hlevel) (hoperand _ _ h)
  | @binary id span opSpan op _ _ left right hop hleft hright ih =>
    subst hop
    have hbound := hoperand _ _ hright
    have hsame := Expr.opened_mono right hlevel
    have hlt : op.precedence.rank < op.precedence.next.rank := by omega
    have hright' : (if right.isBinaryOf op.precedence then right.opened .lowest + 1
        else right.opened op.precedence) ≤ n := by
      by_cases hbinary : right.isBinaryOf op.precedence = true
      · rw [if_pos hbinary, ← Expr.opened_of_isBinaryOf hbinary hlt]
        exact hbound
      · rw [if_neg hbinary]
        omega
    rw [Expr.opened, if_neg (Nat.lt_irrefl _)]
    omega

end Opened

/-- No derivation of an expression opens fewer expressions than the printed one. -/
theorem opened_le_of_expr (levels : Nat) (h : exprAt levels ks e) :
    e.opened .lowest + 1 ≤ levels := by
  induction levels generalizing ks e with
  | zero => exact h.elim
  | succ levels ih =>
    refine Nat.succ_le_succ (Nat.le_trans (e.opened_mono (q := .conjunction) (by decide)) ?_)
    refine opened_le_of_chain rfl (fun ks e h => ?_) h
    refine opened_le_of_chain rfl (fun ks e h => ?_) h
    refine opened_le_of_chain rfl (fun ks e h => ?_) h
    refine opened_le_of_chain rfl (fun ks e h => ?_) h
    exact opened_le_of_access (fun _ _ => ih) h _

/-- What is derived from some tokens is derived from its printed ones. -/
theorem exprAt_printed (h : exprAt levels ks e) :
    exprAt levels (e.printed .lowest) e := by
  have hopened := opened_le_of_expr levels h
  cases levels with
  | zero => exact h.elim
  | succ levels => exact level_printed e .lowest (Nat.le_of_succ_le_succ hopened)

section Writable

variable {L : Language Expr} {ks : List TokenKind}

theorem writable_of_primary (hexpr : ∀ ks e, (∀ k ∈ ks, k.Written) → L ks e → e.Writable)
    (hks : ∀ k ∈ ks, k.Written) (h : Primary L ks e) : e.Writable := by
  cases h with
  | int id span value => exact hks _ mem_cons_self
  | yes id span | no id span => exact trivial
  | str id span value | var id name => exact hks _ mem_cons_self
  | @range id span ks bound hbound =>
    show bound.Writable
    refine hexpr ks bound (fun k hk => hks k ?_) hbound
    simp [hk]
  | paren he =>
    refine hexpr _ _ (fun k hk => hks k ?_) he
    simp [hk]

theorem writable_of_access (hexpr : ∀ ks e, (∀ k ∈ ks, k.Written) → L ks e → e.Writable)
    (hks : ∀ k ∈ ks, k.Written) (h : Access L ks e) : e.Writable := by
  induction h with
  | primary h => exact writable_of_primary hexpr hks h
  | field id span name h ih =>
    exact ⟨ih fun k hk => hks k (by simp [hk]), hks _ (by simp)⟩

theorem writable_of_chain {level : Precedence}
    (hexpr : ∀ ks e, (∀ k ∈ ks, k.Written) → L ks e → e.Writable)
    (hks : ∀ k ∈ ks, k.Written) (h : Chain level L ks e) : e.Writable := by
  induction h with
  | operand h => exact hexpr _ _ hks h
  | binary id span opSpan hop hleft hright ih =>
    exact ⟨ih fun k hk => hks k (by simp [hk]), hexpr _ _ (fun k hk => hks k (by simp [hk])) hright⟩

/-- An expression is derived from the tokens that its leaves are. -/
theorem writable_of_expr (levels : Nat) (hks : ∀ k ∈ ks, k.Written) (h : exprAt levels ks e) :
    e.Writable := by
  induction levels generalizing ks e with
  | zero => exact h.elim
  | succ levels ih =>
    refine writable_of_chain (fun ks e hks h => ?_) hks h
    refine writable_of_chain (fun ks e hks h => ?_) hks h
    refine writable_of_chain (fun ks e hks h => ?_) hks h
    refine writable_of_chain (fun ks e hks h => ?_) hks h
    exact writable_of_access (fun _ _ => ih) hks h

end Writable

end Derivations

/-- No number is given out in vain, and nothing is reported, while an expression is read. -/
theorem Parser.at_of_expr {c' : Cursor} (h : Parser.expr levels c = .ok e c') :
    c'.errors = c.errors ∧ ∃ ks, At False c ((exprs (Grammar.exprAt levels)).ledger e ks) c' := by
  have hends := balanced_expr (I := False) levels c c .empty (.inr ⟨rfl, rfl⟩)
  unfold Ends at hends
  rw [h] at hends
  obtain ⟨ks, hat⟩ := hends
  exact ⟨hat.quiet trivial, ks, hat⟩

section Numbers

/-- Ascending numbers are no more than there are places for them. -/
theorem length_le_of_pairwise_lt {ids : List Nat} {low high : Nat} (hids : ids.Pairwise (· < ·))
    (hlow : ∀ id ∈ ids, low ≤ id) (hhigh : ∀ id ∈ ids, id < high) : ids.length ≤ high - low := by
  induction ids generalizing low with
  | nil => exact Nat.zero_le _
  | cons id ids ih =>
    rw [pairwise_cons] at hids
    have hle := hlow id mem_cons_self
    have hlt := hhigh id mem_cons_self
    have habove : ∀ id' ∈ ids, low + 1 ≤ id' := fun id' h =>
      Nat.lt_of_le_of_lt hle (hids.1 id' h)
    have hrest := ih hids.2 habove fun id' h => hhigh id' (mem_cons_of_mem _ h)
    rw [length_cons]
    omega

/-- Ascending numbers that fill all places from `low` on. -/
theorem eq_range'_of_pairwise_lt {ids : List Nat} {low : Nat} (hids : ids.Pairwise (· < ·))
    (hlow : ∀ id ∈ ids, low ≤ id) (hhigh : ∀ id ∈ ids, id < low + ids.length) :
    ids = List.range' low ids.length := by
  induction ids generalizing low with
  | nil => rfl
  | cons id ids ih =>
    rw [pairwise_cons] at hids
    have hle := hlow id mem_cons_self
    have habove : ∀ id' ∈ ids, id + 1 ≤ id' := fun id' h => hids.1 id' h
    have hbelow : ∀ id' ∈ ids, id' < low + (ids.length + 1) := fun id' h =>
      hhigh id' (mem_cons_of_mem _ h)
    have hplaces := length_le_of_pairwise_lt hids.2 habove hbelow
    have hfirst := hhigh id mem_cons_self
    rw [length_cons] at hfirst
    obtain rfl : id = low := by
      cases ids with
      | nil => simp at hfirst; omega
      | cons id' ids => simp at hplaces; omega
    rw [length_cons, List.range'_succ]
    congr 1
    refine ih hids.2 habove fun id' h => ?_
    have := hbelow id' h
    omega

/-- Erasing an expression keeps the number of its nodes. -/
theorem Expr.length_ids_erase (number : NodeId → NodeId) (e : Expr) :
    (e.erase number).ids.length = e.ids.length := by
  induction e with
  | bool id span value | int id span value | str id span value | var id name => rfl
  | binary id span op opSpan left right ihl ihr =>
    simp only [Expr.erase, Expr.ids, length_append, ihl, ihr, length_singleton]
  | field id span base name ih | range id span bound ih =>
    simp only [Expr.erase, Expr.ids, length_append, ih, length_singleton]

theorem Expr.length_ids_eq {e' : Expr} (h : e.erase unnumbered = e'.erase unnumbered) :
    e.ids.length = e'.ids.length := by
  rw [← e.length_ids_erase unnumbered, h, e'.length_ids_erase]

/-- Expressions of one shape with the same numbers are the same up to spans. -/
theorem Expr.unspanned_eq {e' : Expr} (hshape : e.erase unnumbered = e'.erase unnumbered)
    (hids : e.ids = e'.ids) : e.unspanned = e'.unspanned := by
  unfold Expr.unspanned
  induction e generalizing e' with
  | bool id span value | int id span value | str id span value | var id name =>
    cases e' <;> simp_all [Expr.ids]
  | binary id span op opSpan left right ihl ihr =>
    cases e' with
    | binary id' span' op' opSpan' left' right' =>
      simp only [Expr.erase, Expr.binary.injEq] at hshape
      obtain ⟨-, -, rfl, -, hleft, hright⟩ := hshape
      obtain ⟨hsides, hid⟩ := append_inj_left' hids rfl, append_inj_right' hids rfl
      have hlids := append_inj hsides (Expr.length_ids_eq hleft)
      rw [Expr.erase, Expr.erase, ihl hleft hlids.1, ihr hright hlids.2,
        (singleton_inj.1 hid : id = id')]
    | _ => simp [Expr.erase] at hshape
  | field id span base name ih =>
    cases e' with
    | field id' span' base' name' =>
      simp only [Expr.erase, Expr.field.injEq] at hshape
      obtain ⟨-, -, hbase, hname⟩ := hshape
      have hid := append_inj_right' hids rfl
      rw [Expr.erase, Expr.erase, ih hbase (append_inj_left' hids rfl), hname,
        (singleton_inj.1 hid : id = id')]
    | _ => simp [Expr.erase] at hshape
  | range id span bound ih =>
    cases e' with
    | range id' span' bound' =>
      simp only [Expr.erase, Expr.range.injEq] at hshape
      obtain ⟨-, -, hbound⟩ := hshape
      have hid := append_inj_right' hids rfl
      rw [Expr.erase, Expr.erase, ih hbound (append_inj_left' hids rfl),
        (singleton_inj.1 hid : id = id')]
    | _ => simp [Expr.erase] at hshape

/-- The nodes of an expression that a fresh parser reads are numbered from `0` on. -/
theorem ids_of_expr {tokens : List Token}
    (h : Parser.expr levels { rest := tokens } = .ok e c) : e.ids = List.range e.ids.length := by
  obtain ⟨herrors, ks, hat⟩ := Parser.at_of_expr h
  have hnext : c.nextId = 0 + e.ids.length := (hat.clean herrors).2.2
  rw [range_eq_range']
  refine eq_range'_of_pairwise_lt hat.rising.1.1 (fun _ _ => Nat.zero_le _) fun id hid => ?_
  exact hnext ▸ hat.rising.1.2 id hid

end Numbers

/-- What a fresh parser reads at the start of a text derives from tokens that can be written. -/
theorem derives_of_expr {text : List Char}
    (h : Parser.expr levels { rest := tokens text } = .ok e c) :
    ∃ ks, (∀ k ∈ ks, k.Written) ∧ Grammar.exprAt levels ks e := by
  obtain ⟨herrors, ks, hat⟩ := Parser.at_of_expr h
  obtain ⟨hexpr, hkinds, -⟩ := hat.clean herrors
  refine ⟨ks, fun k hk => ?_, hexpr⟩
  have hmem : k ∈ (tokens text).map Token.kind := by
    show k ∈ Cursor.kinds { rest := tokens text }
    rw [hkinds]
    exact mem_append_left _ hk
  rw [map_kind_tokens, mem_append, mem_singleton] at hmem
  rcases hmem with hmem | rfl
  · exact written_of_mem_kindsOf hmem
  · exact absurd hk (hat.eof_notMem herrors)

theorem parseExpr_eq_ok_iff {tokens : List Token} :
    parseExpr tokens = .ok e ↔ ∃ c, Parser.expr maxNesting { rest := tokens } = .ok e c := by
  unfold parseExpr
  cases Parser.expr maxNesting { rest := tokens } <;> simp

/-- Printing an expression and reading it again gives the expression back: the printed text has no
lexical error, the parser reads all of it, and the nodes have the same numbers, operators,
literals and names. -/
theorem parseExpr_format (text : List Char) (e : Expr) (h : parseExpr (tokens text) = .ok e) :
    scanErrors e.format.toList = [] ∧
      ∃ e' c', parseExpr (tokens e.format.toList) = .ok e' ∧ e'.unspanned = e.unspanned ∧
        Parser.expr maxNesting { rest := tokens e.format.toList } = .ok e' c' ∧
        c'.rest.map Token.kind = [.eof] := by
  obtain ⟨c, hparse⟩ := parseExpr_eq_ok_iff.1 h
  obtain ⟨ks, hwritten, hexpr⟩ := derives_of_expr hparse
  obtain ⟨hkinds, hscan⟩ := ((writable_of_expr maxNesting hwritten hexpr).spells .lowest).tokens
  have hstops : Parser.Stops 1 [.eof] := Parser.stops_cons nofun nofun
  have hcursor : Cursor.kinds { rest := tokens e.format.toList } =
      e.printed .lowest ++ [.eof] := hkinds
  obtain ⟨e', c', hparse', hrest, -, hshape⟩ :=
    Parser.complete_expr maxNesting (exprAt_printed hexpr) hcursor hstops
  have hids : e'.ids = e.ids := by
    rw [ids_of_expr hparse', ids_of_expr hparse, Expr.length_ids_eq hshape]
  exact ⟨hscan, e', c', parseExpr_eq_ok_iff.2 ⟨c', hparse'⟩, Expr.unspanned_eq hshape hids,
    hparse', hrest⟩

/-- An expression with more parentheses than it needs, a quote in a literal, and a token after
it. -/
def crowdedExpr : List Char :=
  "a - (b - (n*2)) == (range(\"q\\\"\")).len;".toList

theorem parseExpr_format_crowdedExpr :
    ∃ e e' : Expr, parseExpr (tokens crowdedExpr) = .ok e ∧
      e.format = "a - (b - n * 2) == range(\"q\\\"\").len" ∧
      parseExpr (tokens e.format.toList) = .ok e' ∧ e'.unspanned = e.unspanned := by
  have hprint : (parseExpr (tokens crowdedExpr)).toOption.map Expr.format =
      some "a - (b - n * 2) == range(\"q\\\"\").len" := by decide +kernel
  cases hparse : parseExpr (tokens crowdedExpr) with
  | error fault => rw [hparse] at hprint; cases hprint
  | ok e =>
      rw [hparse] at hprint
      obtain ⟨-, e', -, hparse', hsame, -⟩ := parseExpr_format crowdedExpr e hparse
      exact ⟨e, e', rfl, Option.some.inj hprint, hparse', hsame⟩

end DeferLang
