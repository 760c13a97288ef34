import DeferLang.Proofs.Bookkeeping

/-!
# Every parser keeps its books

One lemma for each parser.  A parser that is built over others is stated over theirs.
-/

namespace DeferLang

open List

namespace Parser

open Grammar
open Outline (leaf)

variable {α : Type} {I : Prop} {c₀ c : Cursor}

section Expressions

/-- Expressions of a language. -/
abbrev exprs (L : Language Expr) : Category Expr :=
  ⟨L, Expr.ids, fun e => [e.outline], 0, 1, 1, True⟩

/-- The operators that a table of tokens knows are those of one level. -/
def Reads (op? : TokenKind → Option BinOp) (level : Precedence) : Prop :=
  ∀ kind op, op? kind = some op ↔ kind = .mark op.mark ∧ op.precedence = level

theorem reads_conjunctionOp : Reads conjunctionOp .conjunction := by
  intro kind op
  unfold conjunctionOp
  split <;> cases op <;> simp_all [BinOp.mark, BinOp.precedence]

theorem reads_comparisonOp : Reads comparisonOp .comparison := by
  intro kind op
  unfold comparisonOp
  split <;> cases op <;> simp_all [BinOp.mark, BinOp.precedence]

theorem reads_additiveOp : Reads additiveOp .additive := by
  intro kind op
  unfold additiveOp
  split <;> cases op <;> simp_all [BinOp.mark, BinOp.precedence]

theorem reads_multiplicativeOp : Reads multiplicativeOp .multiplicative := by
  intro kind op
  unfold multiplicativeOp
  split <;> cases op <;> simp_all [BinOp.mark, BinOp.precedence]

variable {op? : TokenKind → Option BinOp} {level : Precedence} {L Q : Language Expr}
  {operand inner : Parser Expr}

/-- A chain of operands goes on with what is read so far. -/
theorem follows_chainFrom (hop : ∀ kind op, op? kind = some op → MayRead I kind)
    (hbinary : ∀ {kind op ks ks' left right} id span opSpan, op? kind = some op → Q ks left →
      L ks' right → Q (ks ++ kind :: ks') (.binary id span op opSpan left right))
    (hoperand : Balanced I (exprs L) operand) (rounds : Nat) (left : Expr) (ks : List TokenKind) :
    Follows I c₀ ⟨ks, Q ks left, left.ids, 0, 1, 1, [left.outline], True⟩
      (chainFrom op? operand rounds left)
      (exprs Q).ledger := by
  have hstop (left : Expr) (ks : List TokenKind) :
      Follows I c₀ ⟨ks, Q ks left, left.ids, 0, 1, 1, [left.outline], True⟩ (pure left)
        (exprs Q).ledger :=
    .pure rfl id rfl (.refl _) (by decide) id
  induction rounds generalizing left ks with
  | zero => exact hstop left ks
  | succ rounds ih =>
    refine .peek fun c => ?_
    split
    · exact .of (hstop left ks)
    · rename_i op hfound
      obtain ⟨kind, hkind, hkindOp⟩ := Option.bind_eq_some_iff.1 hfound
      refine .withSpan (.read hkind (hop kind op hkindOp) ?_)
      -- the operator pays for the number of the operation
      refine hoperand.bindAt (by decide) fun right ks' => .withId (by decide) fun id => ?_
      refine (ih (.binary id (Span.join left.span right.span) op c.span left right)
        (ks ++ kind :: ks')).regroup (by decide) (by simp)
        (fun h => hbinary id _ _ hkindOp h.1 h.2) rfl (by decide) ?_ (by simp)
      exact .join left.outline [leaf c.span] right.outline rfl (by simp) (.refl _)

theorem balanced_chainOf (hop : ∀ kind op, op? kind = some op → MayRead I kind)
    (hbinary : ∀ {kind op ks ks' left right} id span opSpan, op? kind = some op → Q ks left →
      L ks' right → Q (ks ++ kind :: ks') (.binary id span op opSpan left right))
    (hfirst : ∀ ks e, L ks e → Q ks e) (hoperand : Balanced I (exprs L) operand) :
    Balanced I (exprs Q) (chain op? operand) := by
  refine fun c₀ => hoperand.bind (by decide) fun first ks => .withTokensLeft fun rounds => ?_
  exact (follows_chainFrom hop hbinary hoperand rounds first ks).regroup (by decide) rfl
    (fun h => hfirst _ _ h.2) rfl (by decide) (.refl _) (by simp)

theorem balanced_chain (hop : Reads op? level) (hoperand : Balanced I (exprs L) operand) :
    Balanced I (exprs (Chain level L)) (chain op? operand) := by
  refine balanced_chainOf (fun kind op h => .inl ?_) (fun id span opSpan h hleft hright => ?_)
    (fun _ _ => .operand) hoperand
  · rw [((hop kind op).1 h).1]
    cases op <;> rfl
  · obtain ⟨rfl, hlevel⟩ := (hop _ _).1 h
    exact .binary id span opSpan hlevel hleft hright

theorem follows_fieldsFrom (rounds : Nat) (base : Expr) (ks : List TokenKind) :
    Follows I c₀ ⟨ks, Access L ks base, base.ids, 0, 1, 1, [base.outline], True⟩
      (fieldsFrom rounds base) (exprs (Access L)).ledger := by
  have hstop (base : Expr) (ks : List TokenKind) :
      Follows I c₀ ⟨ks, Access L ks base, base.ids, 0, 1, 1, [base.outline], True⟩ (pure base)
        (exprs (Access L)).ledger :=
    .pure rfl id rfl (.refl _) (by decide) id
  induction rounds generalizing base ks with
  | zero => exact hstop base ks
  | succ rounds ih =>
    refine .ifAt (fun c hkind => .drop hkind (.inl rfl) ?_) (hstop base ks)
    refine .of (.name fun name => .withId (by decide) fun id => ?_)
    refine (ih (.field id (Span.join base.span name.span) base name) _).regroup (by decide)
      (by simp) (.field id _ name) rfl (by decide) ?_ (by simp)
    exact .join base.outline [] name.outline rfl (by simp) (.refl _)

theorem balanced_primary (hinner : Balanced I (exprs L) inner) :
    Balanced I (exprs (Primary L)) (primary inner) := by
  refine fun c₀ c => .withSpan (.peek ?_)
  -- A literal or a variable is one token and one node.
  have hleaf {kind : TokenKind} {word : Option String} {f : NodeId → Expr}
      (hkind : c.kind? = some kind) (hplain : kind.isPlain = true)
      (hf : ∀ id, Primary L [kind] (f id) ∧ (f id).ids = [id] ∧
        (f id).outline = .node c.span word [])
      (hword : ∀ name, word = some name → kind = .ident name) :
      FollowsAt I c₀ c .empty (advance >>= fun _ => freshId >>= fun id => pure (f id))
        (exprs (Primary L)).ledger := by
    refine .readAs hkind (.inl hplain) hword (.of (.withId (by decide) fun id => ?_))
    obtain ⟨hprimary, hids, houtline⟩ := hf id
    refine .pure rfl (fun _ => hprimary) hids.symm ?_ (by decide) (by simp)
    rw [houtline]
    exact .refl _
  split
  · rename_i value hkind
    exact hleaf hkind rfl (fun id => ⟨.int id _ value, rfl, rfl⟩) nofun
  · rename_i hkind
    exact hleaf hkind rfl (fun id => ⟨.yes id _, rfl, rfl⟩) nofun
  · rename_i hkind
    exact hleaf hkind rfl (fun id => ⟨.no id _, rfl, rfl⟩) nofun
  · rename_i value hkind
    exact hleaf hkind rfl (fun id => ⟨.str id _ value, rfl, rfl⟩) nofun
  · rename_i name hkind
    exact hleaf hkind rfl (fun id => ⟨.var id ⟨name, c.span⟩, rfl, rfl⟩)
      fun _ h => congrArg TokenKind.ident (Option.some.inj h)
  · rename_i hkind
    refine .read hkind (.inl rfl) (.of (.skip (.inl rfl) fun _ => ?_))
    refine hinner.bind (by decide) fun bound ks => .token (.inl rfl) fun close => ?_
    refine .withId (by decide) fun id => .pure (by simp) (fun h => .range id _ h.2) rfl ?_
      (by decide) (by simp)
    exact .join (leaf c.span) [bound.outline] (leaf close) rfl rfl
      ((sublist_append_left _ _).cons _)
  · rename_i hkind
    refine .drop hkind (.inl rfl) (hinner.bindAt (by decide) fun e ks =>
      .skip (.inl rfl) fun _ => ?_)
    exact .pure (by simp) (fun h => .paren h.2) rfl (.refl _) (by decide) (by simp)
  · exact .of (.fail _)

theorem balanced_accessed (hinner : Balanced I (exprs L) inner) :
    Balanced I (exprs (Access L)) (accessed inner) := by
  refine fun c₀ => (balanced_primary hinner).bind (by decide) fun base ks => ?_
  refine .withTokensLeft fun rounds => (follows_fieldsFrom rounds base ks).regroup (by decide) rfl
    (fun h => .primary h.2) rfl (by decide) (.refl _) (by simp)

theorem balanced_operators (hinner : Balanced I (exprs L) inner) :
    Balanced I (exprs (Conjunction L)) (operators inner) := by
  have hterm := balanced_chain reads_multiplicativeOp (balanced_accessed hinner)
  have hcomparison := balanced_chain reads_comparisonOp (balanced_chain reads_additiveOp hterm)
  exact .opened (balanced_chain reads_conjunctionOp hcomparison)

theorem balanced_expr (levels : Nat) : Balanced I (exprs (exprAt levels)) (expr levels) := by
  induction levels with
  | zero => exact fun _ => .fail _
  | succ levels ih => exact balanced_operators ih

end Expressions

section Types

abbrev types : Category TypeRef :=
  ⟨WrittenType, fun _ => [], fun t => [t.outline], 1, 1, 1, False⟩

theorem balanced_modifiersFrom (rounds : Nat) :
    Balanced I ⟨fun ks modifiers => ks = modifiers.map TypeModifier.kind, fun _ => [], fun _ => [],
      0, 0, 0, False⟩ (modifiersFrom rounds) := by
  induction rounds with
  | zero => exact fun _ => .pure rfl (fun _ => rfl) rfl (.refl _) (by decide) nofun
  | succ rounds ih =>
    refine fun c₀ => .peek fun c => ?_
    split
    · rename_i hkind
      refine .drop hkind (.inl rfl) (ih.bindAt (by decide) fun modifiers ks => ?_)
      exact .pure rfl (fun h => by rw [h.2]; rfl) rfl (.refl _) (by decide) nofun
    · rename_i hkind
      refine .drop hkind (.inl rfl) (ih.bindAt (by decide) fun modifiers ks => ?_)
      exact .pure rfl (fun h => by rw [h.2]; rfl) rfl (.refl _) (by decide) nofun
    · exact .of (.pure rfl (fun _ => rfl) rfl (.refl _) (by decide) nofun)

/-- A type starts with one token, which is its identifier if it is named by one. -/
theorem FollowsAt.typeName {β : Type} {k : TypeName → Parser β}
    {post : β → List TokenKind → Ledger} {ks : List TokenKind} {P q : Prop} {ids : List NodeId}
    {n l r : Nat} {row : List Outline}
    (hk : ∀ base ks' a, a.span = c.span → base.outlines.Sublist [a] →
      Follows I c₀ ⟨ks ++ ks', P ∧ BaseType ks' base, ids, n + 1, l + 1, r + 1, row ++ [a], q⟩
        (k base) post) :
    FollowsAt I c₀ c ⟨ks, P, ids, n, l, r, row, q⟩ (Parser.typeName >>= k)
      post := by
  have hword {kind : TokenKind} {base : TypeName} (hkind : c.kind? = some kind)
      (hplain : kind.isPlain = true) (hbase : BaseType [kind] base) (hnone : base.outlines = []) :
      FollowsAt I c₀ c ⟨ks, P, ids, n, l, r, row, q⟩ (advance >>= fun _ => k base) post :=
    .read hkind (.inl hplain) ((hk base [kind] (leaf c.span) rfl (hnone ▸ nil_sublist _)).regroup
      (Nat.succ_pos l) rfl (fun h => ⟨h, hbase⟩) rfl (by simp) (.refl _) id c.advance)
  unfold Parser.typeName
  rw [bind_assoc]
  refine .peek ?_
  split
  · rename_i hkind
    rw [bind_assoc]
    exact hword hkind rfl .int rfl
  · rename_i hkind
    rw [bind_assoc]
    exact hword hkind rfl .bool rfl
  · rename_i hkind
    rw [bind_assoc]
    exact hword hkind rfl .void rfl
  · rename_i hkind
    rw [bind_assoc]
    exact hword hkind rfl .auto rfl
  · rename_i name hkind
    rw [bind_assoc]
    exact .name hkind ((hk (.named ⟨name, c.span⟩) _ _ rfl (.refl _)).regroup (Nat.succ_pos l) rfl
      (fun h => ⟨h, .named ⟨name, c.span⟩⟩) rfl (by simp) (.refl _) id)
  · exact .of (.fail _)

theorem balanced_typeRef : Balanced I types typeRef := by
  refine fun c₀ c => .withSpan (.branch (fun hkind => .read hkind (.inl rfl) ?_) ?_)
  · refine .typeName fun base ks a _ hparts => .withTokensLeft fun rounds => ?_
    refine (balanced_modifiersFrom rounds).bind (by decide) fun modifiers ks' => ?_
    refine .last (leaf c.span) rfl (fun span h => ?_) (fun _ => rfl) rfl (hparts.cons _)
      (fun _ => rfl) (by decide) nofun
    rw [h.2]
    exact .const _ modifiers h.1.2
  · refine .typeName fun base ks a ha hparts => .withTokensLeft fun rounds => ?_
    refine (balanced_modifiersFrom rounds).bind (by decide) fun modifiers ks' => ?_
    refine .last a rfl (fun span h => ?_) (fun _ => rfl) rfl hparts (fun span => by rw [ha]; rfl)
      (by decide) nofun
    rw [h.2]
    exact .plain _ modifiers h.1.2

end Types

section Statements

variable {expr : Parser Expr} {block : Parser Block} {L : Language Expr}
  {B : Language Block}

abbrev blocks (B : Language Block) : Category Block :=
  ⟨B, idsOfBlock, fun b => [outlineOfBlock b], 0, 0, 1, False⟩

/-- Statements, which may use up their tokens for what they report. -/
abbrev statements (L : Language Stmt) : Category Stmt :=
  ⟨L, Stmt.ids, Stmt.outlines, 0, 0, 1, False⟩

/-- Statements that leave a token to pay for an error. -/
abbrev forms (L : Language Stmt) : Category Stmt :=
  ⟨L, Stmt.ids, Stmt.outlines, 0, 1, 1, False⟩

abbrev arguments (L : Language (List Expr)) : Category (List Expr) :=
  ⟨L, fun es => es.flatMap Expr.ids, fun es => es.map Expr.outline, 0, 0, 0, False⟩

theorem balanced_argsFrom (hexpr : Balanced I (exprs L) expr) (rounds : Nat) :
    Balanced I (arguments (MoreArgs L)) (argsFrom expr rounds) := by
  have hnone : Balanced I (arguments (MoreArgs L)) (pure []) :=
    fun _ => .pure rfl (fun _ => .nil) rfl (.refl _) (by decide) nofun
  induction rounds with
  | zero => exact hnone
  | succ rounds ih =>
    refine fun c₀ => .ifAt (fun c hkind => .drop hkind (.inl rfl) ?_) (hnone c₀)
    refine hexpr.bindAt (by decide) fun e ks => ih.bind (by decide) fun es ks' => ?_
    exact .pure (by simp) (fun h => .cons h.1.2 h.2) (by simp) (.refl _) (by decide) nofun

theorem balanced_args (hexpr : Balanced I (exprs L) expr) :
    Balanced I (arguments (Args L)) (args expr) := by
  refine fun c₀ => .ifAt (fun c _ => .of ?_) ?_
  · exact .pure rfl (fun _ => .none) rfl (.refl _) (by decide) nofun
  · refine hexpr.bind (by decide) fun e ks => .withTokensLeft fun rounds => ?_
    refine (balanced_argsFrom hexpr rounds).bind (by decide) fun es ks' => ?_
    exact .pure (by simp) (fun h => .some h.1.2 h.2) (by simp) (.refl _) (by decide) nofun

abbrev calls (L : Language Expr) : Category Call :=
  ⟨CallOf L, Call.ids, fun c => [c.outline], 0, 1, 1, False⟩

theorem balanced_call (hexpr : Balanced I (exprs L) expr) : Balanced I (calls L) (call expr) := by
  refine fun c₀ => .name fun callee => .withId (by decide) fun id => .skip (.inl rfl) fun _ => ?_
  refine (balanced_args hexpr).bind (by decide) fun es ks => .token (.inl rfl) fun close => ?_
  refine .pure (by simp) (fun h => .call id _ callee h.2) (by simp [Call.ids]) ?_ (by decide) nofun
  exact .join callee.outline (es.map Expr.outline) (leaf close) (by simp) rfl
    ((sublist_append_left _ _).cons_cons _)

theorem balanced_varDecl (hexpr : Balanced I (exprs L) expr) :
    Balanced I ⟨Declaration L, VarDecl.ids, fun d => [d.outline], 0, 1, 1, False⟩
      (varDecl expr) := by
  refine fun c₀ => balanced_typeRef.bind (by decide) fun type ks => .withId (by decide) fun id => ?_
  refine .name fun name => .ifAt (fun c hkind => .drop hkind (.inl rfl) ?_) ?_
  · simp only [map_eq_pure_bind, bind_assoc, pure_bind]
    refine hexpr.bindAt (by decide) fun e ks' => .token (.inl rfl) fun close => ?_
    refine .pure (by simp) (fun h => .init id _ name h.1.2 h.2) (by simp [VarDecl.ids, Expr.idsOf?])
      ?_ (by decide) nofun
    exact .join type.outline [name.outline, e.outline] (leaf close) (by simp) rfl
      (((sublist_append_left _ _).cons_cons _).cons_cons _)
  · refine .token (.inl rfl) fun close => ?_
    refine .pure (by simp) (fun h => .plain id _ name h.2) (by simp [VarDecl.ids, Expr.idsOf?]) ?_
      (by decide) nofun
    exact .join type.outline [name.outline] (leaf close) (by simp) rfl
      (((sublist_append_left _ _).cons_cons _).cons_cons _)

theorem balanced_assignment (hexpr : Balanced I (exprs L) expr) :
    Balanced I (forms (Assignment L)) (assignment expr) := by
  refine fun c₀ => hexpr.bind (by decide) fun target ks => .skip (.inl rfl) fun _ => ?_
  refine hexpr.bind (by decide) fun value ks' => .token (.inl rfl) fun close => ?_
  refine .pure (by simp) (fun h => .assign _ h.1.2 h.2) (by simp [Stmt.ids]) ?_ (by decide) nofun
  exact .join target.outline [value.outline] (leaf close) rfl (by simp)
    ((sublist_append_left _ _).cons_cons _)

theorem balanced_callStmt (hexpr : Balanced I (exprs L) expr) :
    Balanced I (forms (StatementForm L B)) (callStmt expr) := by
  refine fun c₀ => (balanced_call hexpr).bind (by decide) fun c ks =>
    .token (.inl rfl) fun close => ?_
  refine .pure (by simp) (fun h => .call _ h.2) rfl ?_ (by decide) nofun
  exact .join c.outline [] (leaf close) rfl rfl ((sublist_append_left _ _).cons_cons _)

/-- A condition stands in parentheses. -/
theorem balanced_condition (hexpr : Balanced I (exprs L) expr) :
    Balanced I (exprs fun ks e => ∃ ks', L ks' e ∧ ks = .mark .lparen :: (ks' ++ [.mark .rparen]))
      (condition expr) := by
  refine fun c₀ => .skip (.inl rfl) fun _ => hexpr.bind (by decide) fun e ks => ?_
  exact .skip (.inl rfl) fun _ => .pure rfl (fun h => ⟨ks, h.2, rfl⟩) rfl (.refl _) (by decide)
    (by simp)

theorem balanced_ifStmt (hexpr : Balanced I (exprs L) expr) (hblock : Balanced I (blocks B) block) :
    Balanced I (forms (StatementForm L B)) (ifStmt expr block) := by
  refine fun c₀ => .token (.inl rfl) fun start => (balanced_condition hexpr).bind (by decide) ?_
  refine fun cond ks => hblock.bind (by decide) fun thenBody ks' => ?_
  refine .ifAt (fun c hkind => .drop hkind (.inl rfl) (hblock.bindAt (by decide) ?_)) ?_
  · refine fun elseBody ks'' => .pure rfl ?_ (by simp [Stmt.ids]) ?_ (by decide) nofun
    · rintro ⟨⟨⟨-, ks, hcond, rfl⟩, hthen⟩, helse⟩
      have hform := StatementForm.ifElse (Span.join start elseBody.span) hcond hthen helse
      simpa using hform
    · exact .join (leaf start) [cond.outline, outlineOfBlock thenBody] (outlineOfBlock elseBody) rfl
        (by simp) (sublist_cons_self _ _)
  · refine .pure rfl ?_ (by simp [Stmt.ids]) ?_ (by decide) nofun
    · rintro ⟨⟨-, ks, hcond, rfl⟩, hthen⟩
      have hform := StatementForm.ifThen (Span.join start thenBody.span) hcond hthen
      simpa using hform
    · exact .join (leaf start) [cond.outline] (outlineOfBlock thenBody) rfl (by simp)
        (sublist_cons_self _ _)

theorem balanced_whileStmt (hexpr : Balanced I (exprs L) expr)
    (hblock : Balanced I (blocks B) block) :
    Balanced I (forms (StatementForm L B)) (whileStmt expr block) := by
  refine fun c₀ => .token (.inl rfl) fun start => (balanced_condition hexpr).bind (by decide) ?_
  refine fun cond ks => hblock.bind (by decide) fun body ks' => ?_
  refine .pure rfl ?_ (by simp [Stmt.ids]) ?_ (by decide) nofun
  · rintro ⟨⟨-, ks, hcond, rfl⟩, hbody⟩
    have hform := StatementForm.whileLoop (Span.join start body.span) hcond hbody
    simpa using hform
  · exact .join (leaf start) [cond.outline] (outlineOfBlock body) rfl (by simp)
      (sublist_cons_self _ _)

theorem balanced_forStmt (hexpr : Balanced I (exprs L) expr)
    (hblock : Balanced I (blocks B) block) :
    Balanced I (forms (StatementForm L B)) (forStmt expr block) := by
  refine fun c₀ => .token (.inl rfl) fun start => .withId (by decide) fun id => ?_
  refine .skip (.inl rfl) fun _ => .name fun var => .skip (.inl rfl) fun _ => ?_
  refine hexpr.bind (by decide) fun iter ks => .skip (.inl rfl) fun _ => ?_
  refine hblock.bind (by decide) fun body ks' => ?_
  refine .pure (by simp) (fun h => .forIn id _ var h.1.2 h.2) (by simp [Stmt.ids]) ?_ (by decide)
    nofun
  exact .join (leaf start) [var.outline, iter.outline] (outlineOfBlock body) rfl (by simp)
    (sublist_cons_self _ _)

theorem balanced_returnStmt (hexpr : Balanced I (exprs L) expr) :
    Balanced I (forms (StatementForm L B)) (returnStmt expr) := by
  refine fun c₀ => .token (.inl rfl) fun start => .ifAt (fun c _ => .of ?_) ?_
  · refine .token (.inl rfl) fun close => .pure rfl (fun _ => .ret _) rfl ?_ (by decide) nofun
    exact .join (leaf start) [] (leaf close) rfl rfl (nil_sublist _)
  · simp only [map_eq_pure_bind, bind_assoc, pure_bind]
    refine hexpr.bind (by decide) fun value ks => .token (.inl rfl) fun close => ?_
    refine .pure (by simp) (fun h => .retValue _ h.2) (by simp [Stmt.ids, Expr.idsOf?]) ?_
      (by decide) nofun
    exact .join (leaf start) [value.outline] (leaf close) rfl rfl
      ((sublist_append_left _ _).cons _)

theorem balanced_deferStmt (hexpr : Balanced I (exprs L) expr) :
    Balanced I (forms (StatementForm L B)) (deferStmt expr) := by
  refine fun c₀ => .token (.inl rfl) fun start => (balanced_call hexpr).bind (by decide) ?_
  refine fun c ks => .token (.inl rfl) fun close => ?_
  refine .pure (by simp) (fun h => .defer _ h.2) rfl ?_ (by decide) nofun
  exact .join (leaf start) [c.outline] (leaf close) rfl rfl ((sublist_append_left _ _).cons _)

theorem balanced_declStmt (hexpr : Balanced I (exprs L) expr) :
    Balanced I (forms (StatementForm L B)) (Stmt.varDecl <$> varDecl expr) :=
  (balanced_varDecl hexpr).map (fun _ _ => .decl) (fun _ => rfl) (fun _ => rfl) (by decide) nofun

/-- Tokens go on with a declarator after any stars and ampersands. -/
theorem declaratorFollows_iff (ts : List Token) :
    declaratorFollows ts = true ↔
      ∃ (modifiers : List TypeModifier) (name : String) (rest : List TokenKind),
        ts.map Token.kind = modifiers.map TypeModifier.kind ++ .ident name :: rest := by
  induction ts with
  | nil => simp [declaratorFollows]
  | cons t ts ih =>
    unfold declaratorFollows
    constructor
    · intro h
      split at h
      · rename_i hkind
        obtain ⟨modifiers, name, rest, hts⟩ := ih.1 h
        exact ⟨.pointer :: modifiers, name, rest, by simp [hkind, hts, TypeModifier.kind]⟩
      · rename_i hkind
        obtain ⟨modifiers, name, rest, hts⟩ := ih.1 h
        exact ⟨.reference :: modifiers, name, rest, by simp [hkind, hts, TypeModifier.kind]⟩
      · rename_i name hkind
        exact ⟨[], name, ts.map Token.kind, by simp [hkind]⟩
      · contradiction
    · rintro ⟨modifiers, name, rest, hts⟩
      rw [map_cons] at hts
      cases modifiers with
      | nil => simp [(List.cons.inj hts).1]
      | cons modifier modifiers =>
        obtain ⟨hkind, hts⟩ := List.cons.inj hts
        have hfollows := ih.2 ⟨modifiers, name, rest, hts⟩
        cases modifier <;> simp [hkind, TypeModifier.kind, hfollows]

/-- The lookahead for a declaration. -/
theorem beginsDeclaration_iff {c : Cursor} {name : String} (hkind : c.kind? = some (.ident name)) :
    BeginsDeclaration c.kinds ↔ declaratorFollows c.rest.tail = true := by
  have hkinds := c.kinds_advance hkind nofun
  have htail : c.rest.tail.map Token.kind = c.kinds.tail := map_tail
  rw [declaratorFollows_iff, htail, hkinds, tail_cons]
  constructor
  · rintro ⟨_, name', modifiers, rest, h⟩
    exact ⟨modifiers, name', rest, (List.cons.inj h).2⟩
  · rintro ⟨modifiers, name', rest, h⟩
    exact ⟨name, name', modifiers, rest, by rw [h]⟩

/-- The lookahead for a call. -/
theorem beginsCall_iff {c : Cursor} {name : String} (hkind : c.kind? = some (.ident name)) :
    BeginsCall c.kinds ↔ c.kindAt 1 = some (.mark .lparen) := by
  have hkinds := c.kinds_advance hkind nofun
  rw [← c.kind?_advance hkind nofun, ← Cursor.head?_kinds, hkinds, List.head?_eq_some_iff]
  constructor
  · rintro ⟨_, rest, h⟩
    exact ⟨rest, (List.cons.inj h).2⟩
  · rintro ⟨rest, h⟩
    exact ⟨name, rest, by rw [h]⟩

/-- The next token decides what a statement does not begin with. -/
theorem FollowsAt.statement {m : Parser Stmt} {kind : TokenKind} {j : Nat}
    (h : FollowsAt I c₀ c .empty m
      (Category.mk (StatementForm L B) Stmt.ids Stmt.outlines 0 j 1 False).ledger)
    (hkind : c.kind? = some kind)
    (hjump : ∀ name, kind = .ident name → ¬(name = "break" ∨ name = "continue")) :
    FollowsAt I c₀ c .empty m (statements (Statement L B)).ledger := by
  refine h.front (fun ks s hform hle => ⟨hform, fun hbegins => ?_⟩)
    ⟨Nat.le_refl _, Nat.zero_le _, Nat.le_refl _⟩
  have hfirst := c.head?_kinds
  rw [hkind] at hfirst
  obtain ⟨rest, hrest | hrest⟩ := hbegins.mono hle
  · rw [hrest] at hfirst
    exact hjump "break" (Option.some.inj hfirst).symm (.inl rfl)
  · rw [hrest] at hfirst
    exact hjump "continue" (Option.some.inj hfirst).symm (.inr rfl)

theorem FollowsAt.assignment (hexpr : Balanced I (exprs L) expr)
    (hdecl : ¬BeginsDeclaration c.kinds) (hcall : ¬BeginsCall c.kinds) :
    FollowsAt I c₀ c .empty (assignment expr) (forms (StatementForm L B)).ledger :=
  (balanced_assignment hexpr c₀ c).front (fun _ _ h hle =>
    .assign h (fun hbegins => hdecl (hbegins.mono hle)) fun hbegins => hcall (hbegins.mono hle))
    (by decide)

theorem followsAt_namedStmt {name : String} (hexpr : Balanced I (exprs L) expr)
    (hkind : c.kind? = some (.ident name)) :
    FollowsAt I c₀ c .empty (namedStmt expr name) (statements (Statement L B)).ledger := by
  have happly : namedStmt expr name c =
      (if name = "break" ∨ name = "continue" then Parser.fail fun _ => .unsupportedJump name
      else if declaratorFollows c.rest.tail = true then Stmt.varDecl <$> varDecl expr
      else if c.kindAt 1 = some (.mark .lparen) then callStmt expr
      else assignment expr : Parser Stmt) c :=
    rfl
  unfold FollowsAt Ends
  rw [happly]
  change FollowsAt I c₀ c .empty (if name = "break" ∨ name = "continue" then _ else _) _
  by_cases hjump : name = "break" ∨ name = "continue"
  · rw [if_pos hjump]
    exact .of (.fail _)
  rw [if_neg hjump]
  have hname (name' : String) (h : TokenKind.ident name = .ident name') :
      ¬(name' = "break" ∨ name' = "continue") :=
    TokenKind.ident.inj h ▸ hjump
  by_cases hdecl : declaratorFollows c.rest.tail = true
  · rw [if_pos hdecl]
    exact .statement (balanced_declStmt hexpr c₀ c) hkind hname
  rw [if_neg hdecl]
  by_cases hcall : c.kindAt 1 = some (.mark .lparen)
  · rw [if_pos hcall]
    exact .statement (balanced_callStmt hexpr c₀ c) hkind hname
  rw [if_neg hcall]
  exact .statement (.assignment hexpr (fun h => hdecl ((beginsDeclaration_iff hkind).1 h))
    fun h => hcall ((beginsCall_iff hkind).1 h)) hkind hname

theorem balanced_statement (hexpr : Balanced I (exprs L) expr)
    (hblock : Balanced I (blocks B) block) :
    Balanced I (statements (Statement L B)) (statement expr block) := by
  refine fun c₀ => .peek fun c => ?_
  have hinner : Balanced I (statements (StatementForm L B)) (Stmt.block <$> block) :=
    hblock.map (fun _ _ => .block) (fun _ => rfl) (fun _ => rfl) (by decide) nofun
  have hdecl := balanced_declStmt (B := B) hexpr
  have hassign {kind : TokenKind} (hkind : c.kind? = some kind)
      (hident : ∀ name, kind ≠ .ident name) :
      FollowsAt I c₀ c .empty (assignment expr)
        (statements (Statement L B)).ledger := by
    have hfirst := c.head?_kinds
    rw [hkind] at hfirst
    refine .statement (.assignment hexpr ?_ ?_) hkind fun name h => absurd h (hident name)
    · rintro ⟨name, name', modifiers, rest, hkinds⟩
      rw [hkinds] at hfirst
      exact hident name (Option.some.inj hfirst).symm
    · rintro ⟨name, rest, hkinds⟩
      rw [hkinds] at hfirst
      exact hident name (Option.some.inj hfirst).symm
  split
  · exact .statement (hinner c₀ c) ‹_› (by nofun)
  · exact .statement (balanced_ifStmt hexpr hblock c₀ c) ‹_› (by nofun)
  · exact .statement (balanced_whileStmt hexpr hblock c₀ c) ‹_› (by nofun)
  · exact .statement (balanced_forStmt hexpr hblock c₀ c) ‹_› (by nofun)
  · exact .statement (balanced_returnStmt hexpr c₀ c) ‹_› (by nofun)
  · exact .statement (balanced_deferStmt hexpr c₀ c) ‹_› (by nofun)
  iterate 5 exact .statement (hdecl c₀ c) ‹_› (by nofun)
  · exact followsAt_namedStmt hexpr ‹_›
  iterate 6 exact hassign ‹_› (by nofun)
  · exact .of (.fail _)

end Statements

section Blocks

variable {item : Parser α} {A : Category α} {m : Parser α} {stmt : Parser Stmt}
  {T : Language Stmt}

/-- Inside a block, braces are read in pairs. -/
theorem Balanced.pairsBraces (h : Balanced I A m) (hinner : I) (hreads : 0 < A.reads) :
    PairsBraces m := by
  intro c
  refine (h c c .empty (.inr ⟨rfl, rfl⟩)).mono ?_ fun e c' hfail => hfail.braces hinner
  rintro a c' ⟨ks, hat⟩
  have hless : c'.rest.length + A.reads ≤ c.rest.length := hat.reads
  exact ⟨hat.braces hinner, by omega⟩

/-- Braces can be counted apart from the rest. -/
theorem Balanced.ofBraces (h : Balanced False A m)
    (hbraces : I → ∀ c, Ends m c (fun _ c' => SameDepth c.rest c'.rest)
      fun e c' => e.fault = .nestingTooDeep ∨ SameDepth c.rest c'.rest) : Balanced I A m := by
  intro c₀ c hstart hpaid
  have hends := h c₀ c { hstart with braces := False.elim } hpaid
  by_cases hinner : I
  · refine (hends.and (hbraces hinner c)).mono ?_ ?_
    · rintro a c' ⟨⟨ks, hat⟩, hread⟩
      exact ⟨ks, { hat with braces := fun _ => (hstart.braces hinner).trans hread }⟩
    · rintro e c' ⟨hfail, hread⟩
      exact { hfail with braces := fun _ => hread.imp_right (hstart.braces hinner).trans }
  · refine hends.mono ?_ fun e c' hfail => { hfail with braces := fun h => absurd h hinner }
    rintro a c' ⟨ks, hat⟩
    exact ⟨ks, { hat with braces := fun h => absurd h hinner }⟩

/-- The items of a braced list, those that could be parsed, are recorded. -/
theorem follows_itemsFrom (hout : ¬I) (hitem : Balanced I A item) (rounds : Nat)
    {ks : List TokenKind} {P q : Prop} {ids : List NodeId} {n l r : Nat} {row : List Outline} :
    Follows I c₀ ⟨ks, P, ids, n, l + 1, r, row, q⟩ (itemsFrom item rounds)
      fun as ks' => ⟨ks ++ ks', P ∧ Many A.language ks' as, ids ++ as.flatMap A.ids, n, l + 1, r,
        row ++ as.flatMap A.outlines, False⟩ := by
  have hsame : n ≤ n ∧ l + 1 ≤ l + 1 ∧ r ≤ r := ⟨Nat.le_refl _, Nat.le_refl _, Nat.le_refl _⟩
  have hnone {ks : List TokenKind} {P q : Prop} {ids : List NodeId} {row : List Outline} :
      Follows I c₀ ⟨ks, P, ids, n, l + 1, r, row, q⟩ (pure [])
        fun as ks' => ⟨ks ++ ks', P ∧ Many A.language ks' as, ids ++ as.flatMap A.ids, n, l + 1, r,
          row ++ as.flatMap A.outlines, False⟩ :=
    .done [] fun _ h => h.mono (append_nil ks).symm (fun hP => ⟨hP, .nil⟩)
      (append_nil ids).symm hsame (.of_eq (append_nil row).symm) False.elim
  induction rounds generalizing ks P q ids row with
  | zero => exact hnone
  | succ rounds ih =>
    intro c
    change FollowsAt I c₀ c _
      (if (decide (c.kind? = some (.mark .rbrace)) || c.atEnd) = true then pure [] else _) _
    by_cases hc : (decide (c.kind? = some (.mark .rbrace)) || c.atEnd) = true
    · rw [if_pos hc]
      exact .of hnone
    rw [if_neg hc]
    have hgoesOn : ¬c.IsStop := by rwa [Bool.or_eq_true, decide_eq_true_iff] at hc
    refine .recovering hitem hout hgoesOn (fun a ks' => ?_) ?_
    · refine ih.bind (fun _ _ => Nat.succ_pos l) fun as ks'' => .done (ks' ++ ks'') fun _ h => ?_
      exact h.mono (append_assoc _ _ _) (fun h => ⟨h.1.1, .cons h.1.2 h.2⟩) (by simp) hsame
        (.of_eq (by simp)) False.elim
    · refine fun c => (ih c).mono fun as ks' _ _ h => ⟨ks', ?_⟩
      exact h.mono rfl (fun h => h.1.elim) rfl hsame (.refl _) id

/-- The brace that opens a block pays for the report that the block is not closed. -/
theorem balanced_blockOf (hstmt : ∀ I, Balanced I (statements T) stmt) :
    Balanced I (blocks (Braces T)) (blockOf stmt) := by
  refine .ofBraces (.opened ?_) fun _ _ => ((hstmt True).pairsBraces trivial Nat.one_pos).blockOf
  have hids (id : NodeId) (span : Span) (stmts : List Stmt) :
      [id] ++ stmts.flatMap Stmt.ids = idsOfBlock ⟨id, span, stmts⟩ := by
    rw [idsOfBlock, idsOfStmts_eq_flatMap, singleton_append]
  have houtline (id : NodeId) (span : Span) (stmts : List Stmt) :
      outlineOfBlock ⟨id, span, stmts⟩ = .node span none (stmts.flatMap Stmt.outlines) := by
    rw [outlineOfBlock, outlinesOfStmts_eq_flatMap]
  refine fun c₀ => .token (.inr ⟨by decide, not_false⟩) fun start =>
    .withId (by decide) fun id => ?_
  refine .withTokensLeft fun rounds => (follows_itemsFrom not_false (hstmt False) rounds).bind
    (fun _ _ => Nat.one_pos) fun stmts ks => .ifAt (fun c hkind => ?_) fun c h _ => ?_
  · refine .withSpan (.read hkind (.inr ⟨by decide, not_false⟩) (.of ?_))
    refine .pure (by simp) (fun h => .braces id _ h.2) (hids _ _ _) ?_ (by decide) False.elim
    rw [houtline]
    exact .join (leaf start) (stmts.flatMap Stmt.outlines) (leaf c.span) (by simp) rfl
      ((sublist_append_left _ _).cons _)
  · -- a block that is not closed ends with the token read last
    have hreported := h.reported (e := ⟨.unclosedBlock c.found, c.span⟩)
      fun text hc => (h.text text hc).1.points_span
    refine ⟨_, (hreported.last (sublist_cons_self _ _)).mono rfl False.elim
      (hids id (Span.join start c.lastSpan) stmts) ⟨Nat.le_refl _, Nat.le_refl _, Nat.le_refl _⟩
      (.of_eq ?_) False.elim⟩
    exact congrArg (fun o => [o]) (houtline _ _ _).symm

theorem balanced_block (levels : Nat) : Balanced I (blocks (blockAt levels)) (block levels) := by
  induction levels generalizing I with
  | zero => exact fun _ => .fail _
  | succ levels ih => exact balanced_blockOf fun _ => balanced_statement (balanced_expr levels) ih

end Blocks

section Members

variable {block : Parser Block} {body : Parser CtorBody} {className : String}

/-- The numbers in the definition of a special member. -/
def idsOfCtorBody : CtorBody → List NodeId
  | .body block => idsOfBlock block
  | .defaulted => []
  | .deleted => []

theorem CtorDecl.ids_eq (c : CtorDecl) : c.ids = idsOfCtorBody c.body := by
  obtain ⟨span, kind, isExplicit, body⟩ := c
  cases body with
  | defaulted | deleted => rfl
  | body block => exact append_nil _

/-- The numbers in a member of a class. -/
def Member.ids (m : Member) : List NodeId :=
  m.ctor?.toList.flatMap CtorDecl.ids

def Member.outline : Member → Outline
  | .field f => f.outline
  | .ctor c => c.outline

/-- Definitions of special members. -/
abbrev bodies : Category CtorBody :=
  ⟨CtorBodyOf, idsOfCtorBody, CtorBody.outlines, 0, 0, 1, False⟩

/-- Special members of a class. -/
abbrev ctors (className : String) : Category CtorDecl :=
  ⟨fun ks d => MemberOf className ks (.ctor d), CtorDecl.ids, fun d => [d.outline], 0, 1, 1, False⟩

abbrev members (className : String) : Category Member :=
  ⟨MemberOf className, Member.ids, fun m => [m.outline], 0, 1, 1, False⟩

theorem balanced_ownName (className : String) {fault : String → ParseFault} :
    Balanced I ⟨fun ks _ => ks = [.ident className], fun _ => [], fun _ => [], 1, 1, 1, False⟩
      (ownName className fault) := by
  refine fun c₀ => .name fun x => .ite (fun _ => ?_) fun h => ?_
  · exact .throwAt (o := x.outline) (mem_append_right _ mem_cons_self)
  · exact .pure rfl (fun _ => by rw [Decidable.not_not.1 h]; rfl) rfl (.sublist (nil_sublist _))
      (by decide) nofun

theorem balanced_skipIdent :
    Balanced I ⟨fun ks _ => OptionalName ks, fun _ => [], fun _ => [], 0, 0, 0, False⟩
      skipIdent := by
  refine fun c₀ => .peek fun c => ?_
  split
  · rename_i name hkind
    rw [← bind_pure advance]
    refine .drop hkind (.inl rfl) (.of ?_)
    exact .pure rfl (fun _ => .inr ⟨name, rfl⟩) rfl (.refl _) (by decide) nofun
  · exact .of (.pure rfl (fun _ => .inl rfl) rfl (.refl _) (by decide) nofun)

theorem balanced_ctorParameters (className : String) :
    Balanced I ⟨CtorParams className, fun _ => [], fun _ => [], 0, 0, 0, False⟩
      (ctorParameters className) := by
  refine fun c₀ => .peek fun c => ?_
  split
  · exact .of (.pure rfl (fun _ => .default) rfl (.refl _) (by decide) nofun)
  · rename_i hkind
    refine .drop hkind (.inl rfl) ((balanced_ownName _).bindAt (by decide) fun _ ks => ?_)
    refine .skip (.inl rfl) fun _ => balanced_skipIdent.bind (by decide) fun _ ks' => ?_
    refine .pure rfl ?_ rfl (.refl _) (by decide) nofun
    rintro ⟨⟨-, rfl⟩, hname⟩
    exact .copy hname
  · refine (balanced_ownName _).bindAt (by decide) fun _ ks => .skip (.inl rfl) fun _ => ?_
    refine balanced_skipIdent.bind (by decide) fun _ ks' => ?_
    refine .pure rfl ?_ rfl (.refl _) (by decide) nofun
    rintro ⟨⟨-, rfl⟩, hname⟩
    exact .move hname
  · exact .of (.fail _)

theorem balanced_ctorBodyOver (hblock : Balanced I (blocks (blockAt maxNesting)) block) :
    Balanced I bodies (ctorBodyOver block) := by
  have hbody : Balanced I bodies (CtorBody.body <$> block) :=
    hblock.map (fun _ _ => .body) (fun _ => rfl) (fun _ => rfl) (by decide) nofun
  refine fun c₀ => .ifAt (fun c _ => .of (hbody c₀)) (.ifAt (fun c hassign => ?_) (.fail _))
  refine .drop hassign (.inl rfl) ?_
  simp only [bind_assoc]
  refine .peek ?_
  split
  · rename_i hkind
    rw [pure_bind]
    refine .drop hkind (.inl rfl) (.of (.skip (.inl rfl) fun _ => ?_))
    exact .pure rfl (fun _ => .defaulted) rfl (.refl _) (by decide) nofun
  · rename_i name hkind
    by_cases hname : name = "delete"
    · subst hname
      rw [if_pos rfl, pure_bind]
      refine .drop hkind (.inl rfl) (.of (.skip (.inl rfl) fun _ => ?_))
      exact .pure rfl (fun _ => .deleted) rfl (.refl _) (by decide) nofun
    · rw [if_neg hname]
      exact .of (.fail_bind _)
  · exact .of (.fail_bind _)

theorem balanced_destructorOver (hbody : Balanced I bodies body) :
    Balanced I (ctors className) (destructorOver body className) := by
  refine fun c₀ => .token (.inl rfl) fun start => (balanced_ownName _).bind (by decide) ?_
  refine fun _ ks => .skip (.inl rfl) fun _ => .skip (.inl rfl) fun _ => ?_
  refine hbody.bind (by decide) fun b ks' => .last (leaf start) rfl ?_ ?_ rfl
    (sublist_cons_self _ _) (fun _ => rfl) (by decide) nofun
  · rintro span ⟨⟨-, rfl⟩, h⟩
    exact .destructor _ h
  · exact fun _ => by rw [CtorDecl.ids_eq]; rfl

/-- A constructor behind its name and the parenthesis that opens its parameters.  It starts with its
name, or with a word before it. -/
theorem follows_ctorParameters {start : Span} {isExplicit : Bool} (pre : List TokenKind)
    (hbody : Balanced I bodies body)
    (hmember : ∀ ks ks' kind b span, CtorParams className ks kind → CtorBodyOf ks' b →
      MemberOf className (pre ++ (ks ++ .mark .rparen :: ks'))
        (.ctor ⟨span, kind, isExplicit, b⟩)) :
    Follows I c₀ ⟨pre, True, [], 2, 2, 2, [leaf start], True⟩
      (ctorParameters className >>= fun kind => expectMark .rparen >>= fun _ => body >>= fun b =>
        lastSpan >>= fun stop => pure (CtorDecl.mk (Span.join start stop) kind isExplicit b))
      (ctors className).ledger := by
  refine (balanced_ctorParameters className).bind (by decide) fun kind ks => ?_
  refine .skip (.inl rfl) fun _ => hbody.bind (by decide) fun b ks' => ?_
  exact .last (leaf start) (by simp) (fun span h => hmember ks ks' kind b _ h.1.2 h.2)
    (fun _ => by rw [CtorDecl.ids_eq]; rfl) rfl (sublist_cons_self _ _) (fun _ => rfl)
    (by decide) nofun

theorem balanced_fieldDef (className : String) :
    Balanced I ⟨fun ks f => MemberOf className ks (.field f), fun _ => [], fun f => [f.outline],
      0, 1, 1, False⟩ fieldDef := by
  refine fun c₀ => balanced_typeRef.bind (by decide) fun type ks => .name fun name => ?_
  refine .token (.inl rfl) fun close => .pure (by simp) (fun h => .field _ name h.2) rfl ?_
    (by decide) nofun
  exact .join type.outline [name.outline] (leaf close) rfl rfl
    ((sublist_append_left _ _).cons_cons _)

/-- A branch on whether a constructor follows. -/
theorem FollowsAt.ifCtor {β : Type} {k : Bool → Parser β} {s : Ledger}
    {post : β → List TokenKind → Ledger}
    (hyes : c.kind? = some (.ident className) → c.advance.kind? = some (.mark .lparen) →
      FollowsAt I c₀ c s (k true) post) (hno : FollowsAt I c₀ c s (k false) post) :
    FollowsAt I c₀ c s (isAtCtor className >>= k) post := by
  change FollowsAt I c₀ c s
    (k (decide (c.kind? = some (.ident className) ∧ c.kindAt 1 = some (.mark .lparen)))) post
  by_cases h : c.kind? = some (.ident className) ∧ c.kindAt 1 = some (.mark .lparen)
  · rw [decide_eq_true h]
    exact hyes h.1 ((c.kind?_advance h.1 nofun).trans h.2)
  · rw [decide_eq_false h]
    exact hno

theorem balanced_memberOver (hbody : Balanced I bodies body) :
    Balanced I (members className) (memberOver body className) := by
  have hctor (d : CtorDecl) : d.ids = Member.ids (.ctor d) := by
    rw [Member.ids, Member.ctor?, Option.toList_some, flatMap_singleton]
  have hdestructor :
      Balanced I (members className) (Member.ctor <$> destructorOver body className) :=
    (balanced_destructorOver hbody).map (fun _ _ h => h) hctor (fun _ => rfl) (by decide) False.elim
  have hfield : Balanced I (members className) (Member.field <$> fieldDef) :=
    (balanced_fieldDef className).map (fun _ _ h => h) (fun _ => rfl) (fun _ => rfl) (by decide)
      False.elim
  refine fun c₀ => .ifAt (fun c _ => .of (hdestructor c₀)) fun c => .withSpan ?_
  refine .branch (fun hkind => .read hkind (.inl rfl) ?_) ?_
  · -- the word `explicit` is where the constructor starts
    refine .ifCtor (fun hname hparen => ?_) ?_
    · refine FollowsAt.map (?_ : FollowsAt I c₀ c.advance _ _ (ctors className).ledger) ?_
      · refine .drop hname (.inl rfl) (.drop hparen (.inl rfl) (.of ?_))
        exact (follows_ctorParameters [.keyword .explicitKw, .ident className, .mark .lparen] hbody
          fun _ _ _ _ span => .explicitCtor span).regroup (by decide) rfl id rfl (by decide)
          (.refl _) id
      · exact fun d ks c' h => h.mono rfl id (hctor d)
          ⟨Nat.le_refl _, Nat.le_refl _, Nat.le_refl _⟩ (.refl _) id
    · simp only [Bool.false_eq_true, if_false, if_true]
      exact .of (.fail _)
  · refine .ifCtor (fun hname hparen => ?_) (.of (hfield c₀))
    refine FollowsAt.map (?_ : FollowsAt I c₀ c _ _ (ctors className).ledger) ?_
    · refine .read hname (.inl rfl) (.drop hparen (.inl rfl) (.of ?_))
      exact (follows_ctorParameters [.ident className, .mark .lparen] hbody
        fun _ _ _ _ span => .ctor span).regroup (by decide) rfl id rfl (by decide) (.refl _) id
    · exact fun d ks c' h => h.mono rfl id (hctor d)
        ⟨Nat.le_refl _, Nat.le_refl _, Nat.le_refl _⟩ (.refl _) id

end Members

end Parser

end DeferLang
