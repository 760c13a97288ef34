import DeferLang.Proofs.Derivation
import DeferLang.Proofs.Shape

/-!
# The parser accepts what the grammar derives

On a token sequence of its language a parser reports nothing, reads the whole
sequence and gives a tree of the derived shape (`Parser.Complete`), provided that
what follows the sequence does not go on with it.  With the other direction this
makes the grammar unambiguous up to spans and numbers.
-/

namespace DeferLang

open List

variable {es : List Expr} {ks' rest : List TokenKind} {kind : TokenKind}

theorem Cursor.length_kinds (c : Cursor) : c.kinds.length = c.rest.length :=
  length_map _

theorem BinOp.mark_injective {op op' : BinOp} (h : op.mark = op'.mark) : op = op' := by
  cases op <;> cases op' <;> first | rfl | contradiction

namespace Parser

variable {α β σ : Type}

/-- Of tokens of the kinds `ks`, a parser reads those before `rest` without an error, and its value
satisfies `P`. -/
def Reaches (m : Parser α) (ks rest : List TokenKind) (P : α → Prop) : Prop :=
  ∀ c : Cursor, c.kinds = ks →
    ∃ a c', m c = .ok a c' ∧ c'.kinds = rest ∧ c'.errors = c.errors ∧ P a

/-- A parser reads every sequence of a language before what `F` admits, and its values have the
shapes that the language gives. -/
def Complete (m : Parser α) (L : Language α) (F : List TokenKind → Prop) (shape : α → σ) : Prop :=
  ∀ ⦃ks rest a⦄, L ks a → F rest → Reaches m (ks ++ rest) rest fun b => shape b = shape a

section Rules

variable {kind : TokenKind} {ks rest mid : List TokenKind} {P : β → Prop} {k : Span → Parser β}

theorem Reaches.pure {b : β} (h : P b) : Reaches (Pure.pure b) rest rest P :=
  fun c hkinds => ⟨b, c, rfl, hkinds, rfl, h⟩

theorem Reaches.bind {m : Parser α} {k : α → Parser β} {P' : α → Prop} (hm : Reaches m ks mid P')
    (hk : ∀ a, P' a → Reaches (k a) mid rest P) : Reaches (m >>= k) ks rest P := by
  intro c hkinds
  obtain ⟨a, c', hrun, hkinds', herrors, ha⟩ := hm c hkinds
  obtain ⟨b, c'', hrun', hkinds'', herrors', hb⟩ := hk a ha c' hkinds'
  exact ⟨b, c'', (bind_of_ok hrun).trans hrun', hkinds'', herrors'.trans herrors, hb⟩

theorem Reaches.map {m : Parser α} {f : α → β} {P' : α → Prop} (hm : Reaches m ks rest P')
    (hf : ∀ a, P' a → P (f a)) : Reaches (f <$> m) ks rest P := by
  rw [map_eq_pure_bind]
  exact hm.bind fun a ha => .pure (hf a ha)

theorem Reaches.opened {m : Parser β} (hm : Reaches m ks rest P) :
    Reaches (opened m) ks rest P := by
  intro c hkinds
  obtain ⟨b, c', hrun, hkinds', herrors, hb⟩ := hm { c with depth := c.depth + 1 } hkinds
  refine ⟨b, { c' with depth := c'.depth - 1 }, ?_, hkinds', herrors, hb⟩
  rw [Parser.opened, hrun]

theorem Reaches.withId {k : NodeId → Parser β} (hk : ∀ id, Reaches (k id) ks rest P) :
    Reaches (freshId >>= k) ks rest P :=
  fun c => hk c.nextId { c with nextId := c.nextId + 1 }

theorem Reaches.withSpan (hk : ∀ s, Reaches (k s) ks rest P) : Reaches (span >>= k) ks rest P :=
  fun c => hk c.span c

theorem Reaches.withLastSpan (hk : ∀ s, Reaches (k s) ks rest P) :
    Reaches (lastSpan >>= k) ks rest P :=
  fun c => hk c.lastSpan c

theorem Reaches.withTokensLeft {k : Nat → Parser β} (hk : Reaches (k ks.length) ks rest P) :
    Reaches (tokensLeft >>= k) ks rest P := by
  intro c hkinds
  rw [← hkinds, c.length_kinds] at hk
  exact hk c rfl

theorem Reaches.look {k : Option TokenKind → Parser β} (hk : Reaches (k ks.head?) ks rest P) :
    Reaches (kind? >>= k) ks rest P := by
  intro c hkinds
  rw [← hkinds, c.head?_kinds] at hk
  exact hk c rfl

theorem Reaches.peek {k : Option TokenKind → Parser β}
    (hk : Reaches (k (some kind)) (kind :: ks) rest P) :
    Reaches (kind? >>= k) (kind :: ks) rest P :=
  .look hk

theorem Reaches.atKind {k : Bool → Parser β} (hk : Reaches (k true) (kind :: ks) rest P) :
    Reaches (isAt kind >>= k) (kind :: ks) rest P := by
  intro c hkinds
  change ∃ a c', k (decide (c.kind? = some kind)) c = .ok a c' ∧ _
  rw [← c.head?_kinds, hkinds, List.head?_cons, decide_eq_true rfl]
  exact hk c hkinds

theorem Reaches.notAt {k : Bool → Parser β} (hkind : ks.head? ≠ some kind)
    (hk : Reaches (k false) ks rest P) : Reaches (isAt kind >>= k) ks rest P := by
  intro c hkinds
  change ∃ a c', k (decide (c.kind? = some kind)) c = .ok a c' ∧ _
  rw [← c.head?_kinds, hkinds, decide_eq_false hkind]
  exact hk c hkinds

theorem Reaches.read {k : Unit → Parser β} (hne : kind ≠ .eof) (hk : Reaches (k ()) ks rest P) :
    Reaches (advance >>= k) (kind :: ks) rest P := by
  intro c hkinds
  have hkind : c.kind? = some kind := by
    rw [← c.head?_kinds, hkinds, List.head?_cons]
  rw [c.kinds_advance hkind hne] at hkinds
  obtain ⟨b, c', hrun, hkinds', herrors, hb⟩ := hk c.advance (List.cons.inj hkinds).2
  rw [c.errors_advance] at herrors
  exact ⟨b, c', hrun, hkinds', herrors, hb⟩

theorem Reaches.token (hne : kind ≠ .eof) (hk : ∀ s, Reaches (k s) ks rest P) :
    Reaches (expect kind >>= k) (kind :: ks) rest P := by
  have hexpect : Reaches (expect kind) (kind :: ks) ks fun _ => True :=
    .atKind (.withSpan fun s => .read hne (.pure trivial))
  exact hexpect.bind fun s _ => hk s

theorem Reaches.name {k : Ident → Parser β} {name : String}
    (hk : ∀ s, Reaches (k ⟨name, s⟩) ks rest P) :
    Reaches (ident >>= k) (.ident name :: ks) rest P := by
  have hident : Reaches ident (.ident name :: ks) ks fun x => x.name = name :=
    .peek (.withSpan fun s => .read nofun (.pure rfl))
  refine hident.bind ?_
  rintro ⟨_, s⟩ rfl
  exact hk s

end Rules

section Expressions

variable {left e : Expr}

open Grammar

/-- What an expression of the level `rank` does not go on with: the next token is no operator of
that rank or a higher one, and no dot. -/
def Stops (rank : Nat) (rest : List TokenKind) : Prop :=
  ∀ kind, rest.head? = some kind →
    kind ≠ .mark .dot ∧ ∀ op : BinOp, rank ≤ op.precedence.rank → kind ≠ .mark op.mark

theorem Stops.mono {rank rank' : Nat} (h : Stops rank rest)
    (hle : rank ≤ rank') : Stops rank' rest :=
  fun kind hkind => ⟨(h kind hkind).1, fun op hop => (h kind hkind).2 op (Nat.le_trans hle hop)⟩

theorem stops_cons {rank : Nat} (hdot : kind ≠ .mark .dot)
    (hop : ∀ op : BinOp, rank ≤ op.precedence.rank → kind ≠ .mark op.mark) :
    Stops rank (kind :: rest) := by
  intro _ hkind
  obtain rfl := Option.some.inj hkind
  exact ⟨hdot, hop⟩

/-- An operator ends what binds tighter than it. -/
theorem stops_mark (op : BinOp) (rest : List TokenKind) :
    Stops (op.precedence.rank + 1) (.mark op.mark :: rest) := by
  refine stops_cons ?_ fun op' hrank hmark => ?_
  · cases op <;> nofun
  · obtain rfl := BinOp.mark_injective (TokenKind.mark.inj hmark)
    omega

/-- The marks that follow expressions in the grammar end them. -/
theorem stops_closing {m : Mark} (rank : Nat) (rest : List TokenKind)
    (h : m = .rparen ∨ m = .semi ∨ m = .comma ∨ m = .assign) : Stops rank (.mark m :: rest) := by
  refine stops_cons ?_ fun op _ => ?_
  · rcases h with rfl | rfl | rfl | rfl <;> nofun
  · rcases h with rfl | rfl | rfl | rfl <;> cases op <;> nofun

variable {level : Precedence} {op? : TokenKind → Option BinOp} {operand inner : Parser Expr}
  {L : Language Expr} {ks rest : List TokenKind}

/-- The operators of one level and their right operands, after `left`. -/
inductive ChainFrom (level : Precedence) (L : Language Expr) : Expr → Language Expr where
  | nil (left : Expr) : ChainFrom level L left [] left
  | cons (id : NodeId) (span opSpan : Span) {op : BinOp} {left right e : Expr}
      {ks ks' : List TokenKind} (hop : op.precedence = level) (hright : L ks right)
      (hrest : ChainFrom level L (.binary id span op opSpan left right) ks' e) :
      ChainFrom level L left (.mark op.mark :: (ks ++ ks')) e

theorem ChainFrom.concat {first right : Expr} {op : BinOp} (id : NodeId)
    (span opSpan : Span) (h : ChainFrom level L first ks left) (hop : op.precedence = level)
    (hright : L ks' right) :
    ChainFrom level L first (ks ++ .mark op.mark :: ks')
      (.binary id span op opSpan left right) := by
  induction h with
  | nil left =>
    have hone := ChainFrom.cons id span opSpan hop hright
      (.nil (.binary id span op opSpan left right))
    rwa [append_nil] at hone
  | cons id' span' opSpan' hop' hright' hrest ih =>
    have hmore := ChainFrom.cons id' span' opSpan' hop' hright' ih
    simpa using hmore

/-- A chain starts with its first operand. -/
theorem exists_first_of_chain (h : Chain level L ks e) :
    ∃ first ks₀ ks₁, L ks₀ first ∧ ChainFrom level L first ks₁ e ∧ ks = ks₀ ++ ks₁ := by
  induction h with
  | operand h => exact ⟨_, _, [], h, .nil _, (append_nil _).symm⟩
  | binary id span opSpan hop hleft hright ih =>
    obtain ⟨first, ks₀, ks₁, hfirst, hfrom, rfl⟩ := ih
    exact ⟨first, ks₀, _, hfirst, hfrom.concat id span opSpan hop hright, append_assoc ..⟩

theorem ChainFrom.stops (h : ChainFrom level L left ks e) (hrest : Stops level.rank rest) :
    Stops (level.rank + 1) (ks ++ rest) := by
  cases h with
  | nil => exact hrest.mono (Nat.le_succ _)
  | cons id span opSpan hop hright hmore =>
    subst hop
    exact stops_mark _ _

/-- At what a level stops at, its table knows no operator. -/
theorem Stops.bind_eq_none (h : Stops level.rank rest) (hop : Reads op? level) :
    rest.head?.bind op? = none := by
  refine Option.eq_none_iff_forall_ne_some.2 fun op hfound => ?_
  obtain ⟨kind, hkind, hkindOp⟩ := Option.bind_eq_some_iff.1 hfound
  obtain ⟨rfl, rfl⟩ := (hop kind op).1 hkindOp
  exact (h _ hkind).2 op (Nat.le_refl _) rfl

/-- The induction is on what is still to be read.  Every round reads a token, so as many rounds
as tokens are enough. -/
theorem reaches_chainFrom (hop : Reads op? level)
    (hoperand : Complete operand L (Stops (level.rank + 1)) (Expr.erase unnumbered))
    (h : ChainFrom level L left ks e) (hstops : Stops level.rank rest) (rounds : Nat) (left' : Expr)
    (hleft : left'.erase unnumbered = left.erase unnumbered) (hrounds : ks.length ≤ rounds) :
    Reaches (chainFrom op? operand rounds left') (ks ++ rest) rest fun e' =>
      e'.erase unnumbered = e.erase unnumbered := by
  induction h generalizing rounds left' with
  | nil left =>
    cases rounds with
    | zero => exact .pure hleft
    | succ rounds =>
      refine .look ?_
      rw [nil_append, hstops.bind_eq_none hop]
      exact .pure hleft
  | @cons id span opSpan op left right e ks₁ ks₂ hlevel hright hmore ih =>
    cases rounds with
    | zero => contradiction
    | succ rounds =>
      have hknown : op? (.mark op.mark) = some op := (hop _ op).2 ⟨rfl, hlevel⟩
      rw [cons_append, append_assoc]
      refine .peek ?_
      rw [Option.bind_some, hknown]
      refine .withSpan fun opSpan' => .read nofun ?_
      refine (hoperand hright (hmore.stops hstops)).bind fun right' hshape => ?_
      refine .withId fun id' => ih rounds _ ?_ ?_
      · simp only [Expr.erase] at hleft hshape ⊢
        rw [hleft, hshape]
        rfl
      · simp only [length_cons, length_append] at hrounds
        omega

theorem complete_chain (hop : Reads op? level)
    (hoperand : Complete operand L (Stops (level.rank + 1)) (Expr.erase unnumbered)) :
    Complete (chain op? operand) (Chain level L) (Stops level.rank) (Expr.erase unnumbered) := by
  intro ks rest e h hstops
  obtain ⟨first, ks₀, ks₁, hfirst, hfrom, rfl⟩ := exists_first_of_chain h
  rw [append_assoc]
  refine (hoperand hfirst (hfrom.stops hstops)).bind fun first' hshape => ?_
  refine .withTokensLeft (reaches_chainFrom hop hoperand hfrom hstops _ _ hshape ?_)
  rw [length_append]
  exact Nat.le_add_right _ _

/-- The field accesses after `base`. -/
inductive FieldsFrom : Expr → Language Expr where
  | nil (base : Expr) : FieldsFrom base [] base
  | cons (id : NodeId) (span : Span) (name : Ident) {base e : Expr} {ks : List TokenKind}
      (hrest : FieldsFrom (.field id span base name) ks e) :
      FieldsFrom base (.mark .dot :: .ident name.name :: ks) e

theorem FieldsFrom.concat {first base : Expr} (id : NodeId) (span : Span) (name : Ident)
    (h : FieldsFrom first ks base) :
    FieldsFrom first (ks ++ [.mark .dot, .ident name.name]) (.field id span base name) := by
  induction h with
  | nil base => exact .cons id span name (.nil _)
  | cons id' span' name' hrest ih => exact .cons id' span' name' ih

theorem exists_primary_of_access (h : Access L ks e) :
    ∃ base ks₀ ks₁, Primary L ks₀ base ∧ FieldsFrom base ks₁ e ∧ ks = ks₀ ++ ks₁ := by
  induction h with
  | primary h => exact ⟨_, _, [], h, .nil _, (append_nil _).symm⟩
  | field id span name h ih =>
    obtain ⟨base, ks₀, ks₁, hbase, hfrom, rfl⟩ := ih
    exact ⟨base, ks₀, _, hbase, hfrom.concat id span name, append_assoc ..⟩

theorem reaches_fieldsFrom {base : Expr} (h : FieldsFrom base ks e)
    (hdot : rest.head? ≠ some (.mark .dot)) (rounds : Nat) (base' : Expr)
    (hbase : base'.erase unnumbered = base.erase unnumbered) (hrounds : ks.length ≤ rounds) :
    Reaches (fieldsFrom rounds base') (ks ++ rest) rest fun e' =>
      e'.erase unnumbered = e.erase unnumbered := by
  induction h generalizing rounds base' with
  | nil base =>
    cases rounds with
    | zero => exact .pure hbase
    | succ rounds => exact .notAt hdot (.pure hbase)
  | cons id span name hrest ih =>
    cases rounds with
    | zero => contradiction
    | succ rounds =>
      refine .atKind (.read nofun (.name fun s => .withId fun id' => ih rounds _ ?_ ?_))
      · simp only [Expr.erase] at hbase ⊢
        rw [hbase]
        rfl
      · simp only [length_cons] at hrounds
        omega

theorem complete_primary (hinner : Complete inner L (Stops 1) (Expr.erase unnumbered)) :
    Complete (primary inner) (Primary L) (fun _ => True) (Expr.erase unnumbered) := by
  intro ks rest e h _
  refine .withSpan fun start => ?_
  have hclose (rest : List TokenKind) : Stops 1 (.mark .rparen :: rest) :=
    stops_closing 1 rest (.inl rfl)
  cases h with
  | int id span value | yes id span | no id span | str id span value | var id name =>
    exact .peek (.read nofun (.withId fun id' => .pure rfl))
  | range id span hbound =>
    simp only [cons_append, append_assoc]
    refine .peek (.read nofun (.token nofun fun _ => ?_))
    refine (hinner hbound (hclose _)).bind fun bound' hshape => ?_
    refine .token nofun fun close => .withId fun id' => .pure ?_
    simp only [Expr.erase] at hshape ⊢
    rw [hshape]
    rfl
  | paren he =>
    simp only [cons_append, append_assoc]
    refine .peek (.read nofun ((hinner he (hclose _)).bind fun e' hshape => ?_))
    exact .token nofun fun _ => .pure hshape

theorem complete_accessed (hinner : Complete inner L (Stops 1) (Expr.erase unnumbered)) :
    Complete (accessed inner) (Access L) (Stops 5) (Expr.erase unnumbered) := by
  intro ks rest e h hstops
  obtain ⟨base, ks₀, ks₁, hbase, hfrom, rfl⟩ := exists_primary_of_access h
  rw [append_assoc]
  refine (complete_primary hinner hbase trivial).bind fun base' hshape => ?_
  have hdot : rest.head? ≠ some (.mark .dot) := fun hkind => (hstops _ hkind).1 rfl
  refine .withTokensLeft (reaches_fieldsFrom hfrom hdot _ _ hshape ?_)
  rw [length_append]
  exact Nat.le_add_right _ _

theorem complete_exprAt (levels : Nat) :
    Complete (expr levels) (exprAt levels) (Stops 1) (Expr.erase unnumbered) := by
  induction levels with
  | zero => exact fun _ _ _ h => h.elim
  | succ levels ih =>
    have hterm := complete_chain reads_multiplicativeOp (complete_accessed ih)
    have hsum := complete_chain reads_additiveOp hterm
    have hall := complete_chain reads_conjunctionOp (complete_chain reads_comparisonOp hsum)
    exact fun ks rest e h hstops => (hall h hstops).opened

theorem complete_expr (levels : Nat) {c : Cursor} (h : exprAt levels ks e)
    (hkinds : c.kinds = ks ++ rest) (hstops : Stops 1 rest) :
    ∃ e' c', expr levels c = .ok e' c' ∧ c'.kinds = rest ∧ c'.errors = c.errors ∧
      e'.erase unnumbered = e.erase unnumbered :=
  complete_exprAt levels h hstops c hkinds

/-- Tokens that an expression can begin with. -/
def BeginsExpr : TokenKind → Prop
  | .int _ => True
  | .str _ => True
  | .ident _ => True
  | .keyword .trueKw => True
  | .keyword .falseKw => True
  | .keyword .rangeKw => True
  | .mark .lparen => True
  | _ => False

/-- The sequences of a language begin with certain tokens. -/
def Begins (L : Language α) (first : TokenKind → Prop) : Prop :=
  ∀ ⦃ks a⦄, L ks a → ∃ kind ks', ks = kind :: ks' ∧ first kind

theorem begins_primary : Begins (Primary L) BeginsExpr := by
  intro ks e h
  cases h <;> exact ⟨_, _, rfl, trivial⟩

theorem begins_access : Begins (Access L) BeginsExpr := by
  intro ks e h
  induction h with
  | primary h => exact begins_primary h
  | field id span name h ih =>
    obtain ⟨kind, ks', rfl, hkind⟩ := ih
    exact ⟨kind, _, rfl, hkind⟩

theorem begins_chain (hL : Begins L BeginsExpr) : Begins (Chain level L) BeginsExpr := by
  intro ks e h
  induction h with
  | operand h => exact hL h
  | binary id span opSpan hop hleft hright ih =>
    obtain ⟨kind, ks', rfl, hkind⟩ := ih
    exact ⟨kind, _, rfl, hkind⟩

theorem begins_expr (levels : Nat) : Begins (exprAt levels) BeginsExpr := by
  cases levels with
  | zero => exact fun _ _ h => h.elim
  | succ levels =>
    exact begins_chain (begins_chain (begins_chain (begins_chain begins_access)))

end Expressions

section Statements

open Grammar

theorem reaches_modifiersFrom (modifiers : List TypeModifier) {name : String}
    (rounds : Nat) (hrounds : modifiers.length ≤ rounds) :
    Reaches (modifiersFrom rounds) (modifiers.map TypeModifier.kind ++ .ident name :: rest)
      (.ident name :: rest) (· = modifiers) := by
  induction modifiers generalizing rounds with
  | nil =>
    cases rounds with
    | zero => exact .pure rfl
    | succ rounds => exact .peek (.pure rfl)
  | cons modifier modifiers ih =>
    cases rounds with
    | zero => contradiction
    | succ rounds =>
      have hrest := ih rounds (Nat.le_of_succ_le_succ hrounds)
      cases modifier with
      | pointer | reference =>
        refine .peek (.read nofun (hrest.bind fun modifiers' hmodifiers => .pure ?_))
        rw [hmodifiers]

theorem complete_typeName : Complete typeName BaseType (fun _ => True) TypeName.erase := by
  intro ks rest base h _
  cases h with
  | int | bool | void | auto => exact .peek (.read nofun (.pure rfl))
  | named name => exact .peek (.name fun s => .pure rfl)

/-- A type is followed by a name in the grammar. -/
def BeforeName (rest : List TokenKind) : Prop :=
  ∃ name rest', rest = .ident name :: rest'

theorem complete_typeRef : Complete typeRef WrittenType BeforeName TypeRef.erase := by
  rintro ks _ type h ⟨name, rest, rfl⟩
  refine .withSpan fun start => ?_
  have hrest (isConst : Bool) {ks : List TokenKind} {base : TypeName}
      {modifiers : List TypeModifier} (hbase : BaseType ks base) :
      Reaches (typeName >>= fun base => tokensLeft >>= fun rounds =>
        modifiersFrom rounds >>= fun modifiers => lastSpan >>= fun stop =>
          Pure.pure (TypeRef.mk (Span.join start stop) isConst base modifiers))
        (ks ++ (modifiers.map TypeModifier.kind ++ .ident name :: rest)) (.ident name :: rest)
        fun t => t.erase = ⟨.blank, isConst, base.erase, modifiers⟩ := by
    refine (complete_typeName hbase trivial).bind fun base' herase => .withTokensLeft ?_
    refine (reaches_modifiersFrom modifiers _ (by simp)).bind ?_
    rintro _ rfl
    refine .withLastSpan fun stop => .pure ?_
    rw [TypeRef.erase, herase]
  cases h with
  | plain span modifiers hbase =>
    rw [append_assoc]
    refine .notAt ?_ (hrest false hbase)
    cases hbase <;> nofun
  | const span modifiers hbase =>
    rw [cons_append, append_assoc]
    exact .atKind (.read nofun (hrest true hbase))

variable {expr : Parser Expr} {block : Parser Block} {L : Language Expr} {B : Language Block}
  {ks rest : List TokenKind}

/-- What follows an argument ends it. -/
theorem stops_moreArgs (h : MoreArgs L ks es) :
    Stops 1 (ks ++ .mark .rparen :: rest) := by
  cases h with
  | nil => exact stops_closing 1 rest (.inl rfl)
  | cons hfirst hrest => exact stops_closing 1 _ (.inr (.inr (.inl rfl)))

section Parts

variable (hexpr : Complete expr L (Stops 1) (Expr.erase unnumbered)) (hfirst : Begins L BeginsExpr)
include hexpr

theorem reaches_argsFrom (h : MoreArgs L ks es) (rounds : Nat) (hrounds : ks.length ≤ rounds) :
    Reaches (argsFrom expr rounds) (ks ++ .mark .rparen :: rest) (.mark .rparen :: rest) fun es' =>
      es'.map (Expr.erase unnumbered) = es.map (Expr.erase unnumbered) := by
  induction h generalizing rounds with
  | nil =>
    cases rounds with
    | zero => exact .pure rfl
    | succ rounds => exact .notAt nofun (.pure rfl)
  | cons hfirst hrest ih =>
    rw [cons_append, append_assoc]
    cases rounds with
    | zero => contradiction
    | succ rounds =>
      refine .atKind (.read nofun ?_)
      refine (hexpr hfirst (stops_moreArgs hrest)).bind fun e' hshape => ?_
      refine .bind (ih rounds ?_) fun es' hshapes => .pure ?_
      · simp only [length_cons, length_append] at hrounds
        omega
      · rw [map_cons, map_cons, hshape, hshapes]

include hfirst

theorem reaches_args (h : Args L ks es) :
    Reaches (args expr) (ks ++ .mark .rparen :: rest) (.mark .rparen :: rest) fun es' =>
      es'.map (Expr.erase unnumbered) = es.map (Expr.erase unnumbered) := by
  cases h with
  | none => exact .atKind (.pure rfl)
  | some harg hrest =>
    rw [append_assoc]
    refine .notAt ?_ ?_
    · obtain ⟨kind, ks', rfl, hkind⟩ := hfirst harg
      rintro ⟨⟩
      exact hkind
    refine (hexpr harg (stops_moreArgs hrest)).bind fun e' hshape => .withTokensLeft ?_
    refine .bind (reaches_argsFrom hexpr hrest _ ?_) fun es' hshapes => .pure ?_
    · rw [length_append]
      exact Nat.le_add_right _ _
    · rw [map_cons, map_cons, hshape, hshapes]

theorem complete_call :
    Complete (call expr) (CallOf L) (fun _ => True) (Call.erase unnumbered) := by
  intro ks rest call h _
  cases h with
  | call id span callee hargs =>
    simp only [cons_append, append_assoc]
    refine .name fun s => .withId fun id' => .token nofun fun _ => ?_
    refine (reaches_args hexpr hfirst hargs).bind fun args' hshapes => ?_
    refine .token nofun fun close => .pure ?_
    simp only [Call.erase, hshapes]
    rfl

omit hfirst

theorem complete_varDecl :
    Complete (varDecl expr) (Declaration L) (fun _ => True) (VarDecl.erase unnumbered) := by
  intro ks rest d h _
  cases h with
  | plain id span name htype =>
    rw [append_assoc]
    refine (complete_typeRef htype ⟨_, _, rfl⟩).bind fun type' herase => ?_
    refine .withId fun id' => .name fun s => .notAt nofun (.token nofun fun close => .pure ?_)
    simp only [VarDecl.erase, herase]
    rfl
  | init id span name htype hinit =>
    simp only [cons_append, append_assoc]
    refine (complete_typeRef htype ⟨_, _, rfl⟩).bind fun type' herase => ?_
    refine .withId fun id' => .name fun s => .atKind (.read nofun ?_)
    simp only [map_eq_pure_bind, bind_assoc, pure_bind]
    refine (hexpr hinit (stops_closing 1 _ (.inr (.inl rfl)))).bind fun e' hshape => ?_
    refine .token nofun fun close => .pure ?_
    simp only [VarDecl.erase, herase, Option.map_some, hshape]
    rfl

theorem complete_assignment :
    Complete (assignment expr) (Assignment L) (fun _ => True) (Stmt.erase unnumbered) := by
  intro ks rest s h _
  cases h with
  | assign span htarget hvalue =>
    simp only [cons_append, append_assoc]
    refine (hexpr htarget (stops_closing 1 _ (.inr (.inr (.inr rfl))))).bind
      fun target' htarget' => .token nofun fun _ => ?_
    refine (hexpr hvalue (stops_closing 1 _ (.inr (.inl rfl)))).bind fun value' hvalue' => ?_
    refine .token nofun fun close => .pure ?_
    simp only [Stmt.erase, htarget', hvalue']

theorem reaches_condition {e : Expr} (h : L ks e) :
    Reaches (condition expr) (.mark .lparen :: (ks ++ .mark .rparen :: rest)) rest fun e' =>
      e'.erase unnumbered = e.erase unnumbered := by
  refine .token nofun fun _ => ?_
  refine (hexpr h (stops_closing 1 _ (.inl rfl))).bind fun e' hshape => ?_
  exact .token nofun fun _ => .pure hshape

end Parts

/-- What begins a declaration begins it before the assignment mark. -/
theorem beginsDeclaration_of_append (h : BeginsDeclaration (ks ++ rest))
    (hassign : .mark .assign ∈ ks) : BeginsDeclaration ks := by
  obtain ⟨name, name', modifiers, more, hks⟩ := h
  have hfront : .ident name :: (modifiers.map TypeModifier.kind ++ [.ident name']) <+: ks ++ rest :=
    ⟨more, by simp [hks]⟩
  rcases List.prefix_or_prefix_of_prefix hfront (prefix_append ks rest) with hle | hle
  · obtain ⟨more', rfl⟩ := hle
    exact ⟨name, name', modifiers, more', by simp⟩
  · have hmem := hle.subset hassign
    have hmark : ∃ modifier ∈ modifiers, modifier.kind = .mark .assign := by
      simpa using hmem
    obtain ⟨modifier, -, hkind⟩ := hmark
    cases modifier <;> contradiction

theorem not_beginsDeclaration_paren {name : String} {ks : List TokenKind} :
    ¬BeginsDeclaration (.ident name :: .mark .lparen :: ks) := by
  rintro ⟨_, name', modifiers, rest, h⟩
  cases modifiers with
  | nil => simp at h
  | cons modifier modifiers => cases modifier <;> simp [TypeModifier.kind] at h

theorem beginsJump_of_append (h : BeginsJump (kind :: ks ++ rest)) :
    BeginsJump (kind :: ks) := by
  obtain ⟨more, h | h⟩ := h
  · exact ⟨ks, .inl (by rw [(List.cons.inj h).1])⟩
  · exact ⟨ks, .inr (by rw [(List.cons.inj h).1])⟩

/-- A declaration begins with a keyword of types, or like one. -/
theorem Declaration.begins {ks : List TokenKind} {d : VarDecl} (h : Declaration L ks d) :
    (∃ word ks', ks = .keyword word :: ks' ∧
      word ∈ [Keyword.constKw, .intKw, .boolKw, .voidKw, .autoKw]) ∨ BeginsDeclaration ks := by
  have htype {ks ks' : List TokenKind} {type : TypeRef} {name : String} (h : WrittenType ks type) :
      (∃ word ks'', ks ++ .ident name :: ks' = .keyword word :: ks'' ∧
        word ∈ [Keyword.constKw, .intKw, .boolKw, .voidKw, .autoKw]) ∨
        BeginsDeclaration (ks ++ .ident name :: ks') := by
    cases h with
    | const span modifiers hbase => exact .inl ⟨_, _, rfl, by decide⟩
    | plain span modifiers hbase =>
      cases hbase with
      | int | bool | void | auto => exact .inl ⟨_, _, rfl, by decide⟩
      | named base => exact .inr ⟨base.name, name, modifiers, ks', rfl⟩
  cases h with
  | plain id span name h => exact htype h
  | init id span name h hinit => exact htype h

/-- Tokens that a statement can begin with are none that ends a block or goes on with an `if`. -/
def BeginsStmt (kind : TokenKind) : Prop :=
  kind ≠ .mark .rbrace ∧ kind ≠ .eof ∧ kind ≠ .keyword .elseKw

theorem BeginsExpr.beginsStmt (h : BeginsExpr kind) : BeginsStmt kind := by
  refine ⟨?_, ?_, ?_⟩ <;> rintro rfl <;> exact h

theorem begins_statement (hfirst : Begins L BeginsExpr) (hbrace : Begins B (· = .mark .lbrace)) :
    Begins (Statement L B) BeginsStmt := by
  rintro ks s ⟨h, -⟩
  cases h with
  | decl h =>
    rcases Declaration.begins h with ⟨word, ks', rfl, hword⟩ | ⟨name, name', modifiers, rest, rfl⟩
    · refine ⟨_, _, rfl, nofun, nofun, ?_⟩
      rintro ⟨⟩
      exact absurd hword (by decide)
    · exact ⟨_, _, rfl, nofun, nofun, nofun⟩
  | assign h =>
    cases h with
    | assign span htarget hvalue =>
      obtain ⟨kind, ks', rfl, hkind⟩ := hfirst htarget
      exact ⟨kind, _, rfl, hkind.beginsStmt⟩
  | call span h =>
    cases h with
    | call id span callee h => exact ⟨_, _, rfl, nofun, nofun, nofun⟩
  | block h =>
    obtain ⟨_, ks', rfl, rfl⟩ := hbrace h
    exact ⟨_, _, rfl, nofun, nofun, nofun⟩
  | ifThen span hcond hbody | ifElse span hcond hthen helse | whileLoop span hcond hbody
  | forIn id span var hiter hbody | ret span | retValue span h | defer span h =>
    exact ⟨_, _, rfl, nofun, nofun, nofun⟩

section Forms

variable {P : Stmt → Prop} {name : String}

/-- The lookahead of a statement that begins with a name. -/
theorem Reaches.named (hjump : ¬BeginsJump (.ident name :: ks))
    (hdecl : BeginsDeclaration (.ident name :: ks) →
      Reaches (Stmt.varDecl <$> varDecl expr) (.ident name :: ks) rest P)
    (hcall : ¬BeginsDeclaration (.ident name :: ks) → BeginsCall (.ident name :: ks) →
      Reaches (callStmt expr) (.ident name :: ks) rest P)
    (hassign : ¬BeginsDeclaration (.ident name :: ks) → ¬BeginsCall (.ident name :: ks) →
      Reaches (assignment expr) (.ident name :: ks) rest P) :
    Reaches (statement expr block) (.ident name :: ks) rest P := by
  refine .peek fun c hkinds => ?_
  have hkind : c.kind? = some (.ident name) := by rw [← c.head?_kinds, hkinds, List.head?_cons]
  rw [← hkinds, beginsDeclaration_iff hkind] at hdecl hcall hassign
  rw [beginsCall_iff hkind] at hcall hassign
  have hname : ¬(name = "break" ∨ name = "continue") := by
    rintro (rfl | rfl)
    · exact hjump ⟨ks, .inl rfl⟩
    · exact hjump ⟨ks, .inr rfl⟩
  change ∃ a c', (if name = "break" ∨ name = "continue" then
      Parser.fail fun _ => .unsupportedJump name
    else if declaratorFollows c.rest.tail = true then Stmt.varDecl <$> varDecl expr
    else if c.kindAt 1 = some (.mark .lparen) then callStmt expr
    else assignment expr : Parser Stmt) c = .ok a c' ∧ _
  rw [if_neg hname]
  split
  · exact hdecl ‹_› c rfl
  · split
    · exact hcall ‹_› ‹_› c rfl
    · exact hassign ‹_› ‹_› c rfl

variable (hexpr : Complete expr L (Stops 1) (Expr.erase unnumbered))
  (hfirst : Begins L BeginsExpr)
  (hblock : Complete block B (fun _ => True) (eraseBlock unnumbered))
include hexpr

theorem reaches_statement_decl {d : VarDecl} (h : Declaration L ks d)
    (hjump : ¬BeginsJump (ks ++ rest)) :
    Reaches (statement expr block) (ks ++ rest) rest fun s =>
      s.erase unnumbered = (Stmt.varDecl d).erase unnumbered := by
  have hdecl : Reaches (Stmt.varDecl <$> varDecl expr) (ks ++ rest) rest fun s =>
      s.erase unnumbered = (Stmt.varDecl d).erase unnumbered := by
    refine (complete_varDecl hexpr h trivial).map fun d' hd => ?_
    rw [Stmt.erase, Stmt.erase, hd]
  rcases Declaration.begins h with ⟨word, ks', rfl, hword⟩ | hbegins
  · refine .peek ?_
    simp only [mem_cons, not_mem_nil, or_false] at hword
    rcases hword with rfl | rfl | rfl | rfl | rfl <;> exact hdecl
  · have hall := hbegins.mono (prefix_append ks rest)
    obtain ⟨name, name', modifiers, more, rfl⟩ := hbegins
    exact .named hjump (fun _ => hdecl) (fun h => absurd hall h) fun h => absurd hall h

include hfirst

theorem reaches_statement_assign {s : Stmt} (h : Assignment L ks s) (hdecl : ¬BeginsDeclaration ks)
    (hcall : ¬BeginsCall ks) (hjump : ¬BeginsJump (ks ++ rest)) :
    Reaches (statement expr block) (ks ++ rest) rest fun s' =>
      s'.erase unnumbered = s.erase unnumbered := by
  have hassign : Reaches (assignment expr) (ks ++ rest) rest _ :=
    complete_assignment hexpr h trivial
  obtain ⟨span, htarget, hvalue⟩ := h
  obtain ⟨kind, ks', rfl, hkind⟩ := hfirst htarget
  cases kind with
  | int value | str value => exact .peek hassign
  | keyword word => cases word <;> first | contradiction | exact .peek hassign
  | mark m => cases m <;> first | contradiction | exact .peek hassign
  | eof => contradiction
  | ident name =>
    refine .named hjump (fun h => ?_) (fun _ h => ?_) fun _ _ => hassign
    · exact absurd (beginsDeclaration_of_append h (by simp)) hdecl
    · refine absurd ?_ hcall
      -- the second token stands before the assignment mark
      obtain ⟨_, more, h⟩ := h
      cases ks' with
      | nil => nomatch h
      | cons kind' ks' =>
        obtain ⟨-, h⟩ := List.cons.inj h
        exact ⟨name, _, by rw [(List.cons.inj h).1]; rfl⟩

theorem reaches_statement_call {span : Span} {call : Call} (h : CallOf L ks call)
    (hjump : ¬BeginsJump (ks ++ .mark .semi :: rest)) :
    Reaches (statement expr block) (ks ++ .mark .semi :: rest) rest fun s =>
      s.erase unnumbered = (Stmt.call span call).erase unnumbered := by
  have hstmt : Reaches (callStmt expr) (ks ++ .mark .semi :: rest) rest fun s =>
      s.erase unnumbered = (Stmt.call span call).erase unnumbered := by
    refine (complete_call hexpr hfirst h trivial).bind fun call' hcall => ?_
    refine .token nofun fun close => .pure ?_
    rw [Stmt.erase, Stmt.erase, hcall]
  obtain ⟨id, span', callee, hargs⟩ := h
  exact .named hjump (fun h => absurd h not_beginsDeclaration_paren) (fun _ _ => hstmt)
    fun _ h => absurd ⟨_, _, rfl⟩ h

include hblock

theorem complete_statement (hbrace : Begins B (· = .mark .lbrace)) :
    Complete (statement expr block) (Statement L B)
      (fun rest => rest.head? ≠ some (.keyword .elseKw)) (Stmt.erase unnumbered) := by
  rintro ks rest s hs helse
  have hjump : ¬BeginsJump (ks ++ rest) := by
    obtain ⟨kind, ks', rfl, -⟩ := begins_statement hfirst hbrace hs
    exact fun h => hs.2 (beginsJump_of_append h)
  cases hs.1 with
  | decl h => exact reaches_statement_decl hexpr h hjump
  | assign h hdecl hcall => exact reaches_statement_assign hexpr hfirst h hdecl hcall hjump
  | call span h =>
    rw [append_assoc] at hjump ⊢
    exact reaches_statement_call hexpr hfirst h hjump
  | block h =>
    have hbody : Reaches block (_ ++ rest) rest _ := hblock h trivial
    obtain ⟨_, ks', rfl, rfl⟩ := hbrace h
    refine .peek (hbody.map fun body' hshape => ?_)
    rw [Stmt.erase, Stmt.erase, hshape]
  | ifThen span hcond hbody =>
    simp only [cons_append, append_assoc]
    refine .peek (.token nofun fun start => ?_)
    refine (reaches_condition hexpr hcond).bind fun cond' hcond' => ?_
    refine (hblock hbody trivial).bind fun body' hbody' => .notAt helse (.pure ?_)
    rw [Stmt.erase, Stmt.erase, hcond', hbody']
  | ifElse span hcond hthen helse =>
    simp only [cons_append, append_assoc]
    refine .peek (.token nofun fun start => ?_)
    refine (reaches_condition hexpr hcond).bind fun cond' hcond' => ?_
    refine (hblock hthen trivial).bind fun then' hthen' => .atKind (.read nofun ?_)
    refine (hblock helse trivial).bind fun else' helse' => .pure ?_
    rw [Stmt.erase, Stmt.erase, hcond', hthen', helse']
  | whileLoop span hcond hbody =>
    simp only [cons_append, append_assoc]
    refine .peek (.token nofun fun start => ?_)
    refine (reaches_condition hexpr hcond).bind fun cond' hcond' => ?_
    refine (hblock hbody trivial).bind fun body' hbody' => .pure ?_
    rw [Stmt.erase, Stmt.erase, hcond', hbody']
  | forIn id span var hiter hbody =>
    simp only [cons_append, append_assoc]
    refine .peek (.token nofun fun start => .withId fun id' => .token nofun fun _ => ?_)
    refine .name fun s => .token nofun fun _ => ?_
    refine (hexpr hiter (stops_closing 1 _ (.inl rfl))).bind fun iter' hiter' => ?_
    refine .token nofun fun _ => (hblock hbody trivial).bind fun body' hbody' => .pure ?_
    rw [Stmt.erase, Stmt.erase, hiter', hbody']
    rfl
  | ret span => exact .peek (.token nofun fun _ => .atKind (.token nofun fun _ => .pure rfl))
  | retValue span h =>
    simp only [cons_append, append_assoc]
    refine .peek (.token nofun fun start => .notAt ?_ ?_)
    · obtain ⟨kind, ks', rfl, hkind⟩ := hfirst h
      rintro ⟨⟩
      exact hkind
    simp only [map_eq_pure_bind, bind_assoc, pure_bind]
    refine (hexpr h (stops_closing 1 _ (.inr (.inl rfl)))).bind fun value' hvalue' => ?_
    refine .token nofun fun close => .pure ?_
    rw [Stmt.erase, Stmt.erase, Option.map_some, Option.map_some, hvalue']
  | defer span h =>
    simp only [cons_append, append_assoc]
    refine .peek (.token nofun fun start => ?_)
    refine (complete_call hexpr hfirst h trivial).bind fun call' hcall => ?_
    refine .token nofun fun close => .pure ?_
    rw [Stmt.erase, Stmt.erase, hcall]

end Forms

section Blocks

theorem Reaches.recovering {m : Parser α} {P : α → Prop} (hm : Reaches m ks rest P) :
    Reaches (recovering m) ks rest fun found => ∃ a, found = some a ∧ P a := by
  intro c hkinds
  obtain ⟨a, c', hrun, hkinds', herrors, ha⟩ := hm c hkinds
  refine ⟨some a, c', ?_, hkinds', herrors, a, rfl, ha⟩
  rw [Parser.recovering, hrun]

variable {item : Parser α} {I : Language α} {F : List TokenKind → Prop} {shape : α → σ}

/-- A list of items up to a closing brace.  Every item reads a token, so as many rounds as
tokens are enough. -/
theorem reaches_itemsFrom (hitem : Complete item I F shape) {first : TokenKind → Prop}
    (hbegins : Begins I first) (hfirst : ∀ kind, first kind → kind ≠ .mark .rbrace ∧ kind ≠ .eof)
    (hF : ∀ kind rest, first kind ∨ kind = .mark .rbrace → F (kind :: rest))
    {as : List α} (h : Many I ks as) (rounds : Nat) (hrounds : ks.length ≤ rounds) :
    Reaches (itemsFrom item rounds) (ks ++ .mark .rbrace :: rest) (.mark .rbrace :: rest)
      fun as' => as'.map shape = as.map shape := by
  induction h generalizing rounds with
  | nil =>
    cases rounds with
    | zero => exact .pure rfl
    | succ rounds => exact .atKind (.pure rfl)
  | @cons ks₁ ks₂ a as hone hmany ih =>
    rw [append_assoc]
    have hnext : F (ks₂ ++ .mark .rbrace :: rest) := by
      cases hmany with
      | nil => exact hF _ _ (.inr rfl)
      | cons hone' hmany' =>
        obtain ⟨kind', ks'', rfl, hkind'⟩ := hbegins hone'
        exact hF _ _ (.inl hkind')
    have hread := hitem hone hnext
    obtain ⟨kind, ks', rfl, hkind⟩ := hbegins hone
    cases rounds with
    | zero => contradiction
    | succ rounds =>
      refine .notAt (fun h => (hfirst kind hkind).1 (Option.some.inj h)) fun c hkinds => ?_
      have hend : c.atEnd = false := by
        rw [Cursor.atEnd, ← c.head?_kinds, hkinds]
        exact decide_eq_false (hfirst kind hkind).2
      change ∃ as c', (if (false || c.atEnd) = true then _ else _ : Parser (List α)) c =
        .ok as c' ∧ _
      rw [hend, if_neg (by decide)]
      refine Reaches.bind hread.recovering ?_ c hkinds
      rintro _ ⟨a', rfl, hshape⟩
      refine .bind (ih rounds ?_) fun as' hshapes => .pure ?_
      · simp only [length_append, length_cons] at hrounds
        omega
      · rw [map_cons, map_cons, hshape, hshapes]

theorem complete_blockOf {stmt : Parser Stmt} {S : Language Stmt}
    (hstmt : Complete stmt S (fun rest => rest.head? ≠ some (.keyword .elseKw))
      (Stmt.erase unnumbered)) (hbegins : Begins S BeginsStmt) :
    Complete (blockOf stmt) (Braces S) (fun _ => True) (eraseBlock unnumbered) := by
  intro ks rest b h _
  obtain ⟨id, span, hmany⟩ := h
  rw [cons_append, append_assoc]
  refine .opened (.token nofun fun start => .withId fun id' => .withTokensLeft ?_)
  refine .bind (reaches_itemsFrom hstmt hbegins ?_ ?_ hmany _ ?_) fun stmts' hshapes => ?_
  · exact fun kind h => ⟨h.1, h.2.1⟩
  · rintro kind rest (h | rfl)
    · exact fun helse => h.2.2 (Option.some.inj helse)
    · nofun
  · rw [length_append]
    exact Nat.le_add_right _ _
  · refine .atKind (.withSpan fun close => .read nofun (.pure ?_))
    rw [eraseBlock, eraseBlock, eraseStmts_eq_map, eraseStmts_eq_map, hshapes]
    rfl

theorem begins_block (levels : Nat) : Begins (blockAt levels) (· = .mark .lbrace) := by
  cases levels with
  | zero => exact fun _ _ h => h.elim
  | succ levels =>
    rintro ks b ⟨id, span, hmany⟩
    exact ⟨_, _, rfl, rfl⟩

theorem complete_block (levels : Nat) :
    Complete (Parser.block levels) (blockAt levels) (fun _ => True) (eraseBlock unnumbered) := by
  induction levels with
  | zero => exact fun _ _ _ h => h.elim
  | succ levels ih =>
    have hstmt := complete_statement (complete_exprAt levels) (begins_expr levels) ih
      (begins_block levels)
    exact complete_blockOf hstmt (begins_statement (begins_expr levels) (begins_block levels))

end Blocks

end Statements

section Items

open Grammar

variable {className : String} {ks rest : List TokenKind}

theorem reaches_ownName (fault : String → ParseFault) :
    Reaches (ownName className fault) (.ident className :: ks) ks fun _ => True := by
  refine .name fun s => ?_
  rw [if_neg (not_not_intro rfl)]
  exact .pure trivial

theorem reaches_skipIdent (h : OptionalName ks) :
    Reaches skipIdent (ks ++ .mark .rparen :: rest) (.mark .rparen :: rest) fun _ => True := by
  rcases h with rfl | ⟨name, rfl⟩
  · exact .peek (.pure trivial)
  · refine .peek ?_
    rw [← bind_pure advance]
    exact .read nofun (.pure trivial)

theorem reaches_ctorParameters {kind : CtorKind} (h : CtorParams className ks kind) :
    Reaches (ctorParameters className) (ks ++ .mark .rparen :: rest) (.mark .rparen :: rest)
      (· = kind) := by
  cases h with
  | default => exact .peek (.pure rfl)
  | copy hname =>
    refine .peek (.read nofun ((reaches_ownName _).bind fun _ _ => .token nofun fun _ => ?_))
    exact (reaches_skipIdent hname).bind fun _ _ => .pure rfl
  | move hname =>
    refine .peek ((reaches_ownName _).bind fun _ _ => .token nofun fun _ => ?_)
    exact (reaches_skipIdent hname).bind fun _ _ => .pure rfl

theorem complete_ctorBody :
    Complete ctorBody CtorBodyOf (fun _ => True) (CtorBody.erase unnumbered) := by
  intro ks rest body h _
  cases h with
  | defaulted =>
    refine .notAt nofun (.atKind (.read nofun ?_))
    refine .bind (.peek (.pure (rfl : _ = CtorBody.defaulted))) ?_
    rintro _ rfl
    exact .read nofun (.token nofun fun _ => .pure rfl)
  | deleted =>
    refine .notAt nofun (.atKind (.read nofun ?_))
    refine .bind (.peek (.pure (rfl : _ = CtorBody.deleted))) ?_
    rintro _ rfl
    exact .read nofun (.token nofun fun _ => .pure rfl)
  | body h =>
    have hbody : Reaches _ (_ ++ rest) rest _ := complete_block maxNesting h trivial
    obtain ⟨_, ks', rfl, rfl⟩ := begins_block maxNesting h
    refine .atKind (hbody.map fun b' hb => ?_)
    rw [CtorBody.erase, CtorBody.erase, hb]

section Members

variable {P : β → Prop}

theorem Reaches.ifCtor {k : Bool → Parser β} {b : Bool}
    (hb : decide (ks.head? = some (.ident className) ∧ ks[1]? = some (.mark .lparen)) = b)
    (hk : Reaches (k b) ks rest P) : Reaches (isAtCtor className >>= k) ks rest P := by
  intro c hkinds
  change ∃ a c', k (decide (c.kind? = some (.ident className) ∧
    c.kindAt 1 = some (.mark .lparen))) c = .ok a c' ∧ _
  rw [← c.head?_kinds, ← c.getElem?_kinds, hkinds, hb]
  exact hk c hkinds

theorem reaches_constructor {kind : CtorKind} {body : CtorBody}
    (start : Span) (isExplicit : Bool) (hparams : CtorParams className ks kind)
    (hbody : CtorBodyOf ks' body) :
    Reaches (constructor className start isExplicit)
      (.ident className :: .mark .lparen :: (ks ++ .mark .rparen :: (ks' ++ rest))) rest fun d =>
        d.erase unnumbered = ⟨.blank, kind, isExplicit, body.erase unnumbered⟩ := by
  refine .read nofun (.read nofun ((reaches_ctorParameters hparams).bind ?_))
  rintro _ rfl
  refine .token nofun fun _ => (complete_ctorBody hbody trivial).bind fun body' hbody' => ?_
  refine .withLastSpan fun stop => .pure ?_
  rw [CtorDecl.erase, hbody']

theorem reaches_destructor {body : CtorBody} (hbody : CtorBodyOf ks body) :
    Reaches (destructor className)
      (.mark .tilde :: .ident className :: .mark .lparen :: .mark .rparen :: (ks ++ rest)) rest
      fun d => d.erase unnumbered = ⟨.blank, .destructor, false, body.erase unnumbered⟩ := by
  refine .token nofun fun start => (reaches_ownName _).bind fun _ _ => ?_
  refine .token nofun fun _ => .token nofun fun _ => ?_
  refine (complete_ctorBody hbody trivial).bind fun body' hbody' => ?_
  refine .withLastSpan fun stop => .pure ?_
  rw [CtorDecl.erase, hbody']

theorem reaches_fieldDef {type : TypeRef} {name : Ident} (htype : WrittenType ks type) :
    Reaches fieldDef (ks ++ .ident name.name :: .mark .semi :: rest) rest fun f =>
      f.erase = ⟨.blank, type.erase, name.erase⟩ := by
  refine (complete_typeRef htype ⟨_, _, rfl⟩).bind fun type' htype' => ?_
  refine .name fun s => .token nofun fun close => .pure ?_
  rw [FieldDef.erase, htype']
  rfl

/-- No parenthesis is the second token of a field. -/
theorem second_ne_paren_of_writtenType {type : TypeRef} {name : String} (h : WrittenType ks type) :
    (ks ++ .ident name :: rest)[1]? ≠ some (.mark .lparen) := by
  have hnext (modifiers : List TypeModifier) :
      (modifiers.map TypeModifier.kind ++ .ident name :: rest)[0]? ≠ some (.mark .lparen) := by
    cases modifiers with
    | nil => nofun
    | cons modifier modifiers => cases modifier <;> nofun
  cases h with
  | plain span modifiers hbase => cases hbase <;> exact hnext modifiers
  | const span modifiers hbase => cases hbase <;> nofun

end Members

/-- Tokens that a type can begin with. -/
def BeginsType : TokenKind → Prop
  | .ident _ => True
  | .keyword .constKw => True
  | .keyword .intKw => True
  | .keyword .boolKw => True
  | .keyword .voidKw => True
  | .keyword .autoKw => True
  | _ => False

theorem begins_writtenType : Begins WrittenType BeginsType := by
  intro ks type h
  cases h with
  | plain span modifiers hbase => cases hbase <;> exact ⟨_, _, rfl, trivial⟩
  | const span modifiers hbase => exact ⟨_, _, rfl, trivial⟩

theorem begins_member :
    Begins (MemberOf className) fun kind => kind ≠ .mark .rbrace ∧ kind ≠ .eof := by
  intro ks m h
  cases h with
  | field span name htype =>
    obtain ⟨kind, ks', rfl, hkind⟩ := begins_writtenType htype
    refine ⟨kind, _, rfl, ?_, ?_⟩ <;> rintro rfl <;> exact hkind
  | ctor span hparams hbody | explicitCtor span hparams hbody | destructor span hbody =>
    exact ⟨_, _, rfl, nofun, nofun⟩

theorem complete_member :
    Complete (member className) (MemberOf className) (fun _ => True) (Member.erase unnumbered) := by
  intro ks rest m h _
  cases h with
  | field span name htype =>
    rw [append_assoc]
    have hfield : Reaches fieldDef (_ ++ .ident name.name :: .mark .semi :: rest) rest _ :=
      reaches_fieldDef htype
    have hparen : (_ ++ .ident name.name :: .mark .semi :: rest)[1]? ≠ some (.mark .lparen) :=
      second_ne_paren_of_writtenType htype
    obtain ⟨kind, ks', rfl, hkind⟩ := begins_writtenType htype
    refine .notAt ?_ (.withSpan fun start => .notAt ?_ (.ifCtor (b := false) ?_ ?_))
    · rintro ⟨⟩
      exact hkind
    · rintro ⟨⟩
      exact hkind
    · exact decide_eq_false fun h => hparen h.2
    · refine hfield.map fun f hf => ?_
      rw [Member.erase, hf]
      rfl
  | ctor span hparams hbody =>
    simp only [cons_append, append_assoc]
    refine .notAt nofun (.withSpan fun start => .notAt nofun (.ifCtor (b := true) ?_ ?_))
    · exact decide_eq_true ⟨rfl, rfl⟩
    · refine (reaches_constructor start false hparams hbody).map fun d hd => ?_
      rw [Member.erase, hd]
      rfl
  | explicitCtor span hparams hbody =>
    simp only [cons_append, append_assoc]
    refine .notAt nofun (.withSpan fun start => .atKind (.read nofun ?_))
    refine .ifCtor (decide_eq_true ⟨rfl, rfl⟩) ?_
    refine (reaches_constructor start true hparams hbody).map fun d hd => ?_
    rw [Member.erase, hd]
    rfl
  | destructor span hbody =>
    refine .atKind ((reaches_destructor hbody).map fun d hd => ?_)
    rw [Member.erase, hd]
    rfl

theorem reaches_classDef (id : NodeId) (span : Span)
    {name : Ident} {members : List Member} (h : Many (MemberOf name.name) ks members)
    (hsemi : OptionalSemi ks') (hnext : rest.head? ≠ some (.mark .semi)) :
    Reaches classDef (.keyword .classKw :: .ident name.name :: .mark .lbrace ::
        (ks ++ .mark .rbrace :: (ks' ++ rest))) rest fun d =>
      d.erase unnumbered = ClassDef.erase unnumbered ⟨id, span, name,
        members.filterMap Member.field?, members.filterMap Member.ctor?⟩ := by
  refine .token nofun fun start => .withId fun id' => .name fun s => .token nofun fun _ => ?_
  refine .withTokensLeft (.bind (reaches_itemsFrom complete_member begins_member (fun _ h => h)
    (fun _ _ _ => trivial) h _ ?_) fun members' hshapes => .token nofun fun close => ?_)
  · rw [length_append]
    exact Nat.le_add_right _ _
  have hshape (stop : Span) : ClassDef.erase unnumbered ⟨id', Span.join start stop,
      ⟨name.name, s⟩, members'.filterMap Member.field?, members'.filterMap Member.ctor?⟩ =
      ClassDef.erase unnumbered ⟨id, span, name, members.filterMap Member.field?,
        members.filterMap Member.ctor?⟩ := by
    simp only [ClassDef.erase, ← filterMap_field?_erase unnumbered, ← filterMap_ctor?_erase,
      hshapes]
    rfl
  rcases hsemi with rfl | rfl
  · exact .notAt hnext (.pure (hshape _))
  · exact .atKind (.withSpan fun stop => .read nofun (.pure (hshape _)))

theorem reaches_function (id : NodeId) (span : Span) {name : Ident} {body : Block}
    (h : blockAt maxNesting ks body) :
    Reaches function
      (.keyword .fnKw :: .ident name.name :: .mark .lparen :: .mark .rparen :: (ks ++ rest)) rest
      fun f => f.erase unnumbered = Function.erase unnumbered ⟨id, span, name, body⟩ := by
  refine .token nofun fun start => .withId fun id' => .name fun s => .token nofun fun _ => ?_
  refine .atKind (.read nofun ?_)
  refine (complete_block maxNesting h trivial).bind fun body' hbody => .pure ?_
  rw [Function.erase, Function.erase, hbody]
  rfl

theorem complete_item :
    Complete item ItemOf (fun rest => rest.head? ≠ some (.mark .semi))
      (Item.erase unnumbered) := by
  intro ks rest i h hnext
  cases h with
  | function id span name h =>
    refine .peek ((reaches_function id span h).map fun f hf => ?_)
    rw [Item.erase, Item.erase, hf]
  | classDef id span name h hsemi =>
    simp only [cons_append, append_assoc]
    refine .peek ((reaches_classDef id span h hsemi hnext).map fun d hd => ?_)
    rw [Item.erase, Item.erase, hd]

theorem begins_item :
    Begins ItemOf fun kind => kind = .keyword .fnKw ∨ kind = .keyword .classKw := by
  intro ks i h
  cases h with
  | function id span name h => exact ⟨_, _, rfl, .inl rfl⟩
  | classDef id span name h hsemi => exact ⟨_, _, rfl, .inr rfl⟩

/-- The items of a program, up to the end of the tokens. -/
theorem programFrom_of_many {items : List Item}
    (h : Many ItemOf ks items) (hend : ∀ kind, rest.head? = some kind → kind = .eof) :
    ∀ (c : Cursor) (rounds : Nat), c.kinds = ks ++ rest → ks.length ≤ rounds →
      (programFrom rounds c).2.errors = c.errors ∧
        (programFrom rounds c).1.map (Item.erase unnumbered) =
          items.map (Item.erase unnumbered) := by
  induction h with
  | nil =>
    intro c rounds hkinds _
    have hatEnd : c.atEnd = true := by
      rw [Cursor.atEnd, ← c.head?_kinds, hkinds, nil_append]
      cases hhead : rest.head? with
      | none => rfl
      | some kind => exact decide_eq_true (hend kind hhead)
    cases rounds with
    | zero => exact ⟨rfl, rfl⟩
    | succ rounds =>
      rw [programFrom, programOver, if_pos hatEnd]
      exact ⟨rfl, rfl⟩
  | @cons ks₁ ks₂ i items hone hmany ih =>
    intro c rounds hkinds hrounds
    rw [append_assoc] at hkinds
    have hnext : (ks₂ ++ rest).head? ≠ some (.mark .semi) := by
      cases hmany with
      | nil =>
        intro h
        exact absurd (hend _ h) (by decide)
      | cons hone' hmany' =>
        obtain ⟨kind, ks', rfl, rfl | rfl⟩ := begins_item hone' <;> simp
    obtain ⟨i', c', hrun, hkinds', herrors, hshape⟩ := complete_item hone hnext c hkinds
    obtain ⟨kind, ks', rfl, hkind⟩ := begins_item hone
    have hatEnd : ¬c.atEnd = true := by
      rw [Cursor.atEnd, ← c.head?_kinds, hkinds]
      rcases hkind with rfl | rfl <;> simp
    cases rounds with
    | zero => contradiction
    | succ rounds =>
      rw [programFrom, programOver, if_neg hatEnd, hrun]
      have hrounds' : ks₂.length ≤ rounds := by
        simp only [length_append, length_cons] at hrounds
        omega
      obtain ⟨hrest, hshapes⟩ := ih c' rounds hkinds' hrounds'
      refine ⟨hrest.trans herrors, ?_⟩
      rw [map_cons, map_cons, hshape]
      exact congrArg _ hshapes

end Items

end Parser

/-- What a program keeps of its items has the shape of the items. -/
theorem Program.shape_eq_of_items {p p' : Program} {items items' : List Parser.Item}
    (hp : p.functions = items.filterMap Parser.Item.function? ∧
      p.classes = items.filterMap Parser.Item.classDef?)
    (hp' : p'.functions = items'.filterMap Parser.Item.function? ∧
      p'.classes = items'.filterMap Parser.Item.classDef?)
    (h : items.map (Parser.Item.erase unnumbered) = items'.map (Parser.Item.erase unnumbered)) :
    p.shape = p'.shape := by
  rw [Program.shape, Program.shape, Program.erase, Program.erase, hp.1, hp.2, hp'.1, hp'.2]
  simp only [← Parser.filterMap_function?_erase, ← Parser.filterMap_classDef?_erase, h]

/-- A token sequence that the grammar derives is parsed without an error, to the derived shape. -/
theorem parseProgram_of_derives {tokens : List Token} {p : Program}
    (h : Grammar.ProgramOf (programKinds tokens) p) :
    (parseProgram tokens).2 = [] ∧ (parseProgram tokens).1.shape = p.shape := by
  obtain ⟨items, hitems, hfunctions, hclasses⟩ := h
  have hkinds : Cursor.kinds { rest := tokens } =
      programKinds tokens ++ (tokens.map Token.kind).dropWhile (· ≠ .eof) :=
    takeWhile_append_dropWhile.symm
  have hend (kind : TokenKind)
      (hkind : ((tokens.map Token.kind).dropWhile (· ≠ .eof)).head? = some kind) :
      kind = .eof := by
    have hnot := List.head?_dropWhile_not (· ≠ TokenKind.eof) (tokens.map Token.kind)
    rw [hkind] at hnot
    simpa using hnot
  have hrounds : (programKinds tokens).length ≤ tokens.length := by
    rw [← length_map Token.kind]
    exact (List.takeWhile_prefix _).length_le
  obtain ⟨herrors, hshapes⟩ :=
    Parser.programFrom_of_many hitems hend { rest := tokens } tokens.length hkinds hrounds
  exact ⟨herrors, Program.shape_eq_of_items ⟨rfl, rfl⟩ ⟨hfunctions, hclasses⟩ hshapes⟩

/-- The parser accepts exactly the grammar: it reports nothing if and only if the tokens before
the end of the stream are derived, the program that it then gives is derived from them, and every
program that is derived from them has its shape. -/
theorem parseProgram_accepts_grammar (tokens : List Token) :
    ((parseProgram tokens).2 = [] ↔ ∃ p, Grammar.ProgramOf (programKinds tokens) p) ∧
      ((parseProgram tokens).2 = [] →
        Grammar.ProgramOf (programKinds tokens) (parseProgram tokens).1) ∧
      ∀ p, Grammar.ProgramOf (programKinds tokens) p →
        (parseProgram tokens).1.shape = p.shape := by
  refine ⟨⟨fun h => ⟨_, derives_parseProgram tokens h⟩, ?_⟩, derives_parseProgram tokens, ?_⟩
  · rintro ⟨p, hp⟩
    exact (parseProgram_of_derives hp).1
  · intro p hp
    exact (parseProgram_of_derives hp).2

end DeferLang
