import DeferLang.Proofs.StableFormat

/-!
# Only clear programs are read back

Printing adds no parentheses and no references: it leaves some of the parentheses
out, and joins two references in a row.  So every derivation of a tree has at least
as many of them as the printed tree, and more if the tree is not clear.  The printed
tokens of a program are therefore a derivation of it only if the program is clear.
-/

namespace DeferLang

open Grammar

section Weight

/-- How many parentheses open and how many references stand in tokens. -/
def weight (ks : List TokenKind) : Nat :=
  ks.countP fun k => k = .mark .lparen || k = .mark .amp

@[simp]
theorem weight_nil : weight [] = 0 :=
  rfl

@[simp]
theorem weight_cons (k : TokenKind) (ks : List TokenKind) :
    weight (k :: ks) = weight ks + if k = .mark .lparen ∨ k = .mark .amp then 1 else 0 := by
  simp [weight, List.countP_cons]

@[simp]
theorem weight_append (ks ks' : List TokenKind) : weight (ks ++ ks') = weight ks + weight ks' :=
  List.countP_append

@[simp]
theorem weight_inParens (ks : List TokenKind) : weight (inParens ks) = weight ks + 1 := by
  simp [inParens]

/-- Tokens that lack some of the parentheses and references of others, or none. -/
def Lighter (printed ks : List TokenKind) : Prop :=
  ks = printed ∨ weight printed < weight ks

namespace Lighter

variable {ks ks' ks'' printed printed' : List TokenKind}

theorem weight_le (h : Lighter printed ks) : weight printed ≤ weight ks := by
  rcases h with rfl | h
  · exact Nat.le_refl _
  · exact Nat.le_of_lt h

theorem trans (h : Lighter ks ks') (h' : Lighter ks' ks'') : Lighter ks ks'' := by
  have hle := h'.weight_le
  rcases h with rfl | h
  · exact h'
  · exact .inr (by omega)

theorem append (h : Lighter printed ks) (h' : Lighter printed' ks') :
    Lighter (printed ++ printed') (ks ++ ks') := by
  have hle := h.weight_le
  have hle' := h'.weight_le
  rcases h with rfl | h
  · rcases h' with rfl | h'
    · exact .inl rfl
    · exact .inr (by simpa using h')
  · exact .inr (by simp only [weight_append]; omega)

theorem cons (k : TokenKind) (h : Lighter printed ks) : Lighter (k :: printed) (k :: ks) := by
  have hfirst : Lighter [k] [k] := .inl rfl
  exact hfirst.append h

theorem inParens (h : Lighter printed ks) :
    Lighter (DeferLang.inParens printed) (DeferLang.inParens ks) :=
  .cons _ (h.append (.inl rfl))

theorem of_inParens (ks : List TokenKind) : Lighter ks (DeferLang.inParens ks) :=
  .inr (by simp)

end Lighter

end Weight

section Expressions

variable {e : Expr} {p q : Precedence}

theorem Expr.printed_eq_or (e : Expr) (p : Precedence) :
    e.printed p = e.printed .lowest ∨ e.printed p = inParens (e.printed .lowest) := by
  cases e with
  | binary id span op opSpan left right =>
    have hlowest : ¬op.precedence.rank < Precedence.lowest.rank := Nat.not_lt_zero _
    by_cases hwrap : op.precedence.rank < p.rank
    · exact .inr (by simp [Expr.printed, inParensIf, hwrap, hlowest])
    · exact .inl (by simp [Expr.printed, inParensIf, hwrap, hlowest])
  | _ => exact .inl rfl

/-- The tighter what is expected, the more parentheses are printed. -/
theorem Expr.lighter_printed (e : Expr) (hle : p.rank ≤ q.rank) :
    Lighter (e.printed p) (e.printed q) := by
  cases e with
  | binary id span op opSpan left right =>
    by_cases hwrap : op.precedence.rank < p.rank
    · have hwrap' : op.precedence.rank < q.rank := by omega
      exact .inl (by simp [Expr.printed, hwrap, hwrap'])
    · by_cases hwrap' : op.precedence.rank < q.rank
      · simpa [Expr.printed, inParensIf, hwrap, hwrap'] using Lighter.of_inParens _
      · exact .inl (by simp [Expr.printed, hwrap, hwrap'])
  | _ => exact .inl rfl

/-- A right operand is printed like one of the next precedence. -/
theorem Expr.printed_right (op : BinOp) (right : Expr) :
    (if right.isBinaryOf op.precedence then inParens (right.printed .lowest)
      else right.printed op.precedence) = right.printed op.precedence.next := by
  by_cases hbinary : right.isBinaryOf op.precedence = true
  · rw [if_pos hbinary]
    cases right with
    | binary id span op' opSpan left right =>
      have hop : op'.precedence = op.precedence := by simpa [Expr.isBinaryOf] using hbinary
      have hlowest : ¬op.precedence.rank < Precedence.lowest.rank := Nat.not_lt_zero _
      have hwrap : op.precedence.rank < op.precedence.next.rank := by
        rw [op.rank_next]
        exact Nat.lt_succ_self _
      simp [Expr.printed, inParensIf, hop, hlowest, hwrap]
    | _ => contradiction
  · rw [if_neg hbinary]
    exact (Expr.printed_next op.rank_next (Bool.eq_false_iff.2 hbinary)).1

variable {L : Language Expr} {ks : List TokenKind}

theorem lighter_of_primary (hexpr : ∀ ks e, L ks e → Lighter (e.printed .lowest) ks)
    (h : Primary L ks e) (p : Precedence) : Lighter (e.printed p) ks := by
  cases h with
  | range id span hbound => exact .cons _ (hexpr _ _ hbound).inParens
  | paren he =>
    have hinner := (hexpr _ _ he).inParens
    rcases e.printed_eq_or p with hprinted | hprinted
    · rw [hprinted]
      exact (Lighter.of_inParens _).trans hinner
    · rw [hprinted]
      exact hinner
  | _ => exact .inl rfl

theorem lighter_of_access (hexpr : ∀ ks e, L ks e → Lighter (e.printed .lowest) ks)
    (h : Access L ks e) (p : Precedence) : Lighter (e.printed p) ks := by
  induction h generalizing p with
  | primary h => exact lighter_of_primary hexpr h p
  | field id span name h ih => exact (ih .access).append (.inl rfl)

theorem lighter_of_chain {level : Precedence} (hrank : level.next.rank = level.rank + 1)
    (hoperand : ∀ ks e, L ks e → Lighter (e.printed level.next) ks) (h : Chain level L ks e) :
    Lighter (e.printed level) ks := by
  induction h with
  | operand h => exact (Expr.lighter_printed _ (by omega)).trans (hoperand _ _ h)
  | @binary id span opSpan op _ _ left right hop hleft hright ih =>
    subst hop
    simp only [Expr.printed, Expr.printed_right, inParensIf, Nat.lt_irrefl, decide_false]
    exact ih.append (.cons _ (hoperand _ _ hright))

/-- An expression is printed with the parentheses that it needs. -/
theorem lighter_of_expr (levels : Nat) (h : exprAt levels ks e) :
    Lighter (e.printed .lowest) ks := by
  induction levels generalizing ks e with
  | zero => exact h.elim
  | succ levels ih =>
    refine (Expr.lighter_printed e (q := .conjunction) (by decide)).trans ?_
    refine lighter_of_chain rfl (fun ks e h => ?_) h
    refine lighter_of_chain rfl (fun ks e h => ?_) h
    refine lighter_of_chain rfl (fun ks e h => ?_) h
    refine lighter_of_chain rfl (fun ks e h => ?_) h
    exact lighter_of_access (fun _ _ => ih) h _

end Expressions

section Statements

/-- Tokens from which printing takes something away if what they stand for is not clear. -/
def Sheds (clear : Bool) (printed ks : List TokenKind) : Prop :=
  weight printed + (!clear).toNat ≤ weight ks

variable {ks ks' printed printed' : List TokenKind} {clear clear' : Bool}

theorem Lighter.sheds (h : Lighter printed ks) : Sheds true printed ks := by
  simpa [Sheds] using h.weight_le

theorem Sheds.of_weight_eq (h : weight printed = weight ks) : Sheds true printed ks := by
  simp [Sheds, h]

theorem Sheds.append (h : Sheds clear printed ks) (h' : Sheds clear' printed' ks') :
    Sheds (clear && clear') (printed ++ printed') (ks ++ ks') := by
  have hboth : (!(clear && clear')).toNat ≤ (!clear).toNat + (!clear').toNat := by
    cases clear <;> simp
  unfold Sheds at h h' ⊢
  simp only [weight_append]
  omega

theorem Sheds.cons (k : TokenKind) (h : Sheds clear printed ks) :
    Sheds clear (k :: printed) (k :: ks) := by
  unfold Sheds at h ⊢
  simp only [weight_cons]
  omega

/-- What is followed by the same tokens. -/
theorem Sheds.before (h : Sheds clear printed ks) (rest : List TokenKind) :
    Sheds clear (printed ++ rest) (ks ++ rest) := by
  have hrest : Sheds true rest rest := .of_weight_eq rfl
  simpa using h.append hrest

theorem Sheds.inParens (h : Sheds clear printed ks) :
    Sheds clear (DeferLang.inParens printed) (DeferLang.inParens ks) :=
  (h.before _).cons _

theorem sheds_modifiers (ms : List TypeModifier) :
    Sheds (separate ms) (modifierKinds ms) (ms.map TypeModifier.kind) := by
  induction ms using modifierKinds.induct with
  | case1 => exact .of_weight_eq rfl
  | case2 ms ih => exact ih.cons _
  | case3 => exact .of_weight_eq rfl
  | case4 ms ih => exact (ih.cons _).cons _
  | case5 ms ih =>
    unfold Sheds at ih ⊢
    simp [modifierKinds, TypeModifier.kind, separate]
    omega

theorem sheds_writtenType {t : TypeRef} (h : WrittenType ks t) :
    Sheds (separate t.modifiers) t.printed ks := by
  cases h with
  | plain span modifiers h =>
    rw [eq_of_baseType h]
    exact (sheds_modifiers modifiers).cons _
  | const span modifiers h =>
    rw [eq_of_baseType h]
    exact ((sheds_modifiers modifiers).cons _).cons _

variable {levels : Nat}

theorem sheds_args {es : List Expr} (h : Args (exprAt levels) ks es) :
    Sheds true (printedArgs es) ks := by
  have hmore {ks : List TokenKind} {es : List Expr} (h : MoreArgs (exprAt levels) ks es) :
      Sheds true (es.flatMap fun e => .mark .comma :: e.printed .lowest) ks := by
    induction h with
    | nil => exact .of_weight_eq rfl
    | cons hfirst hrest ih => exact ((lighter_of_expr levels hfirst).sheds.append ih).cons _
  cases h with
  | none => exact .of_weight_eq rfl
  | some hfirst hrest => exact (lighter_of_expr levels hfirst).sheds.append (hmore hrest)

theorem sheds_callOf {c : Call} (h : CallOf (exprAt levels) ks c) : Sheds true c.printed ks := by
  cases h with
  | call id span callee hargs => exact (sheds_args hargs).inParens.cons _

theorem sheds_declaration {d : VarDecl} (h : Declaration (exprAt levels) ks d) :
    Sheds (separate d.type.modifiers) d.printed ks := by
  cases h with
  | plain id span name htype => exact (sheds_writtenType htype).before _
  | init id span name htype hinit =>
    have hvalue := (((lighter_of_expr levels hinit).sheds.before [.mark .semi]).cons
      (.mark .assign)).cons (.ident name.name)
    simpa [VarDecl.printed, printedInit] using (sheds_writtenType htype).append hvalue

/-- Tokens that begin like a declaration do so whatever follows. -/
theorem beginsDeclaration_append (h : beginsDeclaration ks = true) (rest : List TokenKind) :
    BeginsDeclaration (ks ++ rest) := by
  have hname {ks : List TokenKind} (h : modifiersThenName ks = true) :
      ∃ (ms : List TypeModifier) (name : String) (more : List TokenKind),
        ks = ms.map TypeModifier.kind ++ .ident name :: more := by
    induction ks using modifiersThenName.induct with
    | case1 ks ih =>
      obtain ⟨ms, name, more, rfl⟩ := ih h
      exact ⟨.pointer :: ms, name, more, rfl⟩
    | case2 ks ih =>
      obtain ⟨ms, name, more, rfl⟩ := ih h
      exact ⟨.reference :: ms, name, more, rfl⟩
    | case3 name more => exact ⟨[], name, more, rfl⟩
    | case4 ks hstar hamp hident => simp [modifiersThenName] at h
  unfold beginsDeclaration at h
  split at h
  · rename_i name ks
    obtain ⟨ms, name', more, rfl⟩ := hname h
    exact ⟨name, name', ms, more ++ rest, by simp⟩
  · contradiction

/-- An assignment that is not clear was read with parentheses around its target. -/
theorem sheds_assignment {s : Stmt} (h : Assignment (exprAt levels) ks s)
    (hdecl : ¬BeginsDeclaration ks) (hjump : ¬BeginsJump ks) : Sheds s.isClear s.printed ks := by
  cases h with
  | @assign span ks ks' target value htarget hvalue =>
    have hrest := ((lighter_of_expr levels hvalue).sheds.before [.mark .semi]).cons
      (.mark .assign)
    have hfirst : Sheds (Stmt.assign span target value).isClear (target.printed .lowest) ks := by
      -- either the target was read from its printed tokens, or parentheses were left out
      rcases lighter_of_expr levels htarget with rfl | hlt
      · have hnoJump : beginsJump (target.printed .lowest) = false := by
          rw [← Bool.not_eq_true, ← beginsJump_iff]
          exact fun h => hjump (h.mono (List.prefix_append _ _))
        have hnoDecl : beginsDeclaration (target.printed .lowest) = false := by
          rw [← Bool.not_eq_true]
          exact fun h => hdecl (beginsDeclaration_append h _)
        rw [Stmt.isClear, hnoJump, hnoDecl]
        exact .of_weight_eq rfl
      · have hle : (!(Stmt.assign span target value).isClear).toNat ≤ 1 := Bool.toNat_le _
        unfold Sheds
        omega
    simpa [Stmt.printed] using hfirst.append hrest

theorem sheds_statement {s : Stmt}
    (hblock : ∀ ks b, blockAt levels ks b → Sheds (Block.isClear b) (Block.printed b) ks)
    (h : Statement (exprAt levels) (blockAt levels) ks s) : Sheds s.isClear s.printed ks := by
  obtain ⟨hform, hjump⟩ := h
  have hexpr {ks : List TokenKind} {e : Expr} (h : exprAt levels ks e) :
      Sheds true (e.printed .lowest) ks :=
    (lighter_of_expr levels h).sheds
  cases hform with
  | decl h => exact sheds_declaration h
  | assign h hdecl hcall => exact sheds_assignment h hdecl hjump
  | call span h => exact (sheds_callOf h).before _
  | block h => exact hblock _ _ h
  | ifThen span hcond hbody =>
    have hall := ((hexpr hcond).inParens.append (hblock _ _ hbody)).cons (.keyword .ifKw)
    simpa [Stmt.printed, Stmt.isClear, inParens] using hall
  | ifElse span hcond hthen helse =>
    have hbodies := (hblock _ _ hthen).append ((hblock _ _ helse).cons (.keyword .elseKw))
    have hall := ((hexpr hcond).inParens.append hbodies).cons (.keyword .ifKw)
    simpa [Stmt.printed, Stmt.isClear, inParens] using hall
  | whileLoop span hcond hbody =>
    have hall := ((hexpr hcond).inParens.append (hblock _ _ hbody)).cons (.keyword .whileKw)
    simpa [Stmt.printed, Stmt.isClear, inParens] using hall
  | forIn id span var hiter hbody =>
    have hhead := (((hexpr hiter).cons (.keyword .inKw)).cons (.ident var.name)).inParens
    have hall := (hhead.append (hblock _ _ hbody)).cons (.keyword .forKw)
    simpa [Stmt.printed, Stmt.isClear, inParens] using hall
  | ret span => exact .of_weight_eq rfl
  | retValue span h => exact ((hexpr h).before _).cons _
  | defer span h => exact ((sheds_callOf h).before _).cons _

/-- A block that is not clear was read with parentheses or references that it is printed
without. -/
theorem sheds_block (levels : Nat) {ks : List TokenKind} {b : Block} (h : blockAt levels ks b) :
    Sheds (Block.isClear b) (Block.printed b) ks := by
  induction levels generalizing ks b with
  | zero => exact h.elim
  | succ levels ih =>
    have hmany {ks : List TokenKind} {ss : List Stmt}
        (h : Many (Statement (exprAt levels) (blockAt levels)) ks ss) :
        Sheds (areClear ss) (printedStmts ss) ks := by
      induction h with
      | nil => exact .of_weight_eq rfl
      | cons hfirst hrest ihrest =>
        exact (sheds_statement (fun _ _ => ih) hfirst).append ihrest
    cases h with
    | braces id span h => exact ((hmany h).before _).cons _

end Statements

section Items

variable {ks : List TokenKind} {name : String}

theorem sheds_ctor {c : CtorDecl} {ks ks' : List TokenKind} (hbody : CtorBodyOf ks' c.body)
    (hhead : weight (c.kind.printed name) = weight ks) :
    Sheds (Parser.Member.isClear (.ctor c)) (c.kind.printed name ++ c.body.printed)
      (ks ++ ks') := by
  obtain ⟨span, kind, isExplicit, body⟩ := c
  have hbody' : Sheds (Parser.Member.isClear (.ctor ⟨span, kind, isExplicit, body⟩)) body.printed
      ks' := by
    cases hbody with
    | defaulted | deleted => exact .of_weight_eq rfl
    | body h => exact sheds_block maxNesting h
  simpa using (Sheds.of_weight_eq hhead).append hbody'

theorem sheds_member {m : Parser.Member} (h : MemberOf name ks m) :
    Sheds m.isClear (m.printed name) ks := by
  have hparams {ks : List TokenKind} {kind : CtorKind} (h : CtorParams name ks kind) :
      weight (kind.printed name) = weight (.ident name :: inParens ks) := by
    have hoptional {ks : List TokenKind} (h : OptionalName ks) : weight ks = 0 := by
      rcases h with rfl | ⟨name, rfl⟩ <;> simp
    cases h with
    | default => rfl
    | copy h | move h => simp [CtorKind.printed, hoptional h]
  cases h with
  | field span fieldName h => exact (sheds_writtenType h).before _
  | ctor span hkind hbody =>
    have hall := sheds_ctor (c := ⟨span, _, false, _⟩) hbody (hparams hkind)
    simpa [Parser.Member.printed, optionalKeyword, inParens] using hall
  | explicitCtor span hkind hbody =>
    have hall := (sheds_ctor (c := ⟨span, _, true, _⟩) hbody (hparams hkind)).cons
      (.keyword .explicitKw)
    simpa [Parser.Member.printed, optionalKeyword, inParens] using hall
  | destructor span hbody =>
    exact sheds_ctor (c := ⟨span, .destructor, false, _⟩) hbody rfl

/-- What holds piece by piece holds of the pieces in any order. -/
theorem sheds_many {α : Type} {item : Language α} (clear : α → Bool)
    (printed : α → List TokenKind) (hitem : ∀ ks a, item ks a → Sheds (clear a) (printed a) ks)
    {as as' : List α} (h : Many item ks as) (hperm : as'.Perm as) :
    Sheds (as'.all clear) (as'.flatMap printed) ks := by
  have hall : Sheds (as.all clear) (as.flatMap printed) ks := by
    clear hperm
    induction h with
    | nil => exact .of_weight_eq rfl
    | cons hfirst hrest ih => exact (hitem _ _ hfirst).append ih
  have hweight : weight (as'.flatMap printed) = weight (as.flatMap printed) :=
    (hperm.flatMap_right printed).countP_eq _
  have hclear : as'.all clear = as.all clear := by
    rw [Bool.eq_iff_iff, List.all_eq_true, List.all_eq_true]
    simp only [hperm.mem_iff]
  rw [Sheds, hweight, hclear]
  exact hall

theorem sheds_item {i : Parser.Item} (h : ItemOf ks i) : Sheds i.isClear i.printed ks := by
  cases h with
  | function id span name h =>
    exact ((((sheds_block maxNesting h).cons _).cons _).cons _).cons _
  | @classDef id span name ks ks' members h hsemi =>
    have hmembers := sheds_many Parser.Member.isClear (Parser.Member.printed name.name)
      (fun _ _ => sheds_member) h (perm_members (c := ⟨id, span, name, _, _⟩) rfl rfl)
    have hend : Sheds true [.mark .rbrace, .mark .semi] (.mark .rbrace :: ks') := by
      rcases hsemi with rfl | rfl <;> exact .of_weight_eq rfl
    have hall := (((hmembers.append hend).cons (.mark .lbrace)).cons (.ident name.name)).cons
      (.keyword .classKw)
    simpa [Parser.Item.isClear, Parser.Item.printed] using hall

/-- A program that was read from its printed tokens is clear. -/
theorem Program.isClear_of_programOf_printed {p : Program} (h : ProgramOf p.printed p) :
    p.isClear = true := by
  obtain ⟨items, hitems, hfunctions, hclasses⟩ := h
  have hsheds : Sheds p.isClear p.printed p.printed :=
    sheds_many Parser.Item.isClear Parser.Item.printed (fun _ _ => sheds_item) hitems
      (perm_items hfunctions hclasses)
  unfold Sheds at hsheds
  cases hclear : p.isClear with
  | true => rfl
  | false =>
    rw [hclear] at hsheds
    exact absurd hsheds (Nat.not_succ_le_self _)

end Items

/- Whether a program is clear is told by its shape. -/
section Shape

variable (number : NodeId → NodeId)

theorem Expr.printed_erase (e : Expr) (outer : Precedence) :
    (e.erase number).printed outer = e.printed outer := by
  induction e generalizing outer with
  | binary id span op opSpan left right ihl ihr =>
    simp [Expr.printed, Expr.isBinaryOf_erase, ihl, ihr]
  | field id span base name ih => simp [Expr.printed, ih]
  | range id span bound ih => simp [Expr.printed, ih]
  | _ => rfl

mutual

theorem Stmt.isClear_erase : ∀ s : Stmt, (s.erase number).isClear = s.isClear
  | .varDecl _ => rfl
  | .assign _ _ _ => by simp only [Stmt.erase, Stmt.isClear, Expr.printed_erase]
  | .call _ _ => rfl
  | .block body => Block.isClear_erase body
  | .ifElse _ _ thenBody none => Block.isClear_erase thenBody
  | .ifElse _ _ thenBody (some elseBody) => by
    simp only [Stmt.erase, Stmt.isClear, Block.isClear_erase thenBody, Block.isClear_erase elseBody]
  | .whileLoop _ _ body => Block.isClear_erase body
  | .forIn _ _ _ _ body => Block.isClear_erase body
  | .ret _ _ | .defer _ _ | .cleanup _ => rfl

theorem Block.isClear_erase : ∀ b : BlockOf Stmt,
    Block.isClear (eraseBlock number b) = Block.isClear b
  | ⟨_, _, stmts⟩ => areClear_erase stmts

theorem areClear_erase : ∀ ss : List Stmt, areClear (eraseStmts number ss) = areClear ss
  | [] => rfl
  | s :: ss => by
    simp only [eraseStmts, areClear, Stmt.isClear_erase s, areClear_erase ss]

end

theorem Program.isClear_erase (p : Program) : (p.erase number).isClear = p.isClear := by
  have hctor (c : CtorDecl) :
      Parser.Member.isClear (.ctor (c.erase number)) = Parser.Member.isClear (.ctor c) := by
    obtain ⟨span, kind, isExplicit, body⟩ := c
    cases body with
    | body block => exact Block.isClear_erase number block
    | _ => rfl
  have hclass (c : ClassDef) :
      Parser.Item.isClear (.ofClass (c.erase number)) = Parser.Item.isClear (.ofClass c) := by
    simp only [Parser.Item.isClear, ClassDef.members, ClassDef.erase, List.all_append, List.all_map,
      Function.comp_def, hctor]
    rfl
  have hfunction (f : Function) :
      Parser.Item.isClear (.ofFunction (f.erase number)) = Parser.Item.isClear (.ofFunction f) :=
    Block.isClear_erase number f.body
  simp only [Program.isClear, Program.items, Program.erase, List.all_append, List.all_map,
    Function.comp_def, hclass, hfunction]

end Shape

/-- A program that was read without an error is printed as a text without lexical errors.  The text
is read without an error, as a program of the same shape, and is printed as the same text again, if
and only if the program is clear. -/
theorem format_stable_iff_isClear (text : List Char)
    (hparse : (parseProgram (tokens text)).2 = []) :
    let p := (parseProgram (tokens text)).1
    let p' := (parseProgram (tokens p.format.toList)).1
    scanErrors p.format.toList = [] ∧
      ((parseProgram (tokens p.format.toList)).2 = [] ∧ p'.shape = p.shape ∧
        p'.format = p.format ↔ p.isClear = true) := by
  intro p p'
  obtain ⟨hprinted, hscan⟩ := programKinds_format text hparse
  refine ⟨hscan, ?_, ?_⟩
  · rintro ⟨herrors, hshape, hformat⟩
    have hderives : ProgramOf p.printed p' := by
      rw [← hprinted]
      exact derives_parseProgram (tokens p.format.toList) herrors
    have hprinted' : p'.printed = p.printed := by
      rw [← (programKinds_format p.format.toList herrors).1, ← hprinted]
      exact congrArg (fun text : String => programKinds (tokens text.toList)) hformat
    have hclear : p'.isClear = true := by
      apply Program.isClear_of_programOf_printed
      rw [hprinted']
      exact hderives
    calc p.isClear = p.shape.isClear := (p.isClear_erase unnumbered).symm
      _ = p'.shape.isClear := by rw [hshape]
      _ = true := (p'.isClear_erase unnumbered).trans hclear
  · intro hclear
    exact format_stable_of_isClear text hparse hclear

/-- Members in an order of their own, parentheses around a target, and a parameter without its
name. -/
def crowdedProgram : List Char :=
  "fn f() \x7b (a.b) = (1 + (2)); \x7d class C \x7b C(C&&) = default; int & * x; \x7d".toList

theorem format_stable_iff_isClear_crowdedProgram :
    let p := (parseProgram (tokens crowdedProgram)).1
    (parseProgram (tokens crowdedProgram)).2 = [] ∧ p.isClear = true ∧
      (parseProgram (tokens p.format.toList)).2 = [] ∧
      (parseProgram (tokens p.format.toList)).1.shape = p.shape := by
  have hparse : (parseProgram (tokens crowdedProgram)).2 = [] := by decide +kernel
  have hclear : (parseProgram (tokens crowdedProgram)).1.isClear = true := by decide +kernel
  obtain ⟨-, hstable⟩ := format_stable_iff_isClear crowdedProgram hparse
  obtain ⟨herrors, hshape, -⟩ := hstable.2 hclear
  exact ⟨hparse, hclear, herrors, hshape⟩

/-- Whether a text is read without an error, but its printed program is not read without an error
and printed the same again. -/
def printsUnstable (text : String) : Bool :=
  let read := parseProgram (tokens text.toList)
  let again := parseProgram (tokens read.1.format.toList)
  (scanErrors text.toList).isEmpty && read.2.isEmpty &&
    !(again.2.isEmpty && again.1.format = read.1.format)

/-- A target without its parentheses may begin like a jump or a declaration, and two references
may be printed as one mark. -/
theorem format_unstable_of_not_isClear :
    printsUnstable "fn main() \x7b (break) = 1; \x7d" = true ∧
      printsUnstable "fn main() \x7b (a) * b = 1; \x7d" = true ∧
      printsUnstable "fn main() \x7b int & & x; \x7d" = true := by
  decide +kernel

end DeferLang
