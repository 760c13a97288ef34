import DeferLang.Proofs.PrintedExpr

/-!
# The tokens of a printed program

A printed program is scanned without an error, and its tokens are known from the
tree: its classes come before its functions and the fields of a class before its
special members, parentheses are left out where they can be, and two references
in a row are one mark.
-/

namespace DeferLang

open List

variable {c : Char} {es : List Expr} {name : String}

open Grammar

section Printed

/-- The tokens of modifiers without a blank between them: two references make one mark. -/
def modifierKinds : List TypeModifier → List TokenKind
  | [] => []
  | .pointer :: ms => .mark .star :: modifierKinds ms
  | [.reference] => [.mark .amp]
  | .reference :: .pointer :: ms => .mark .amp :: .mark .star :: modifierKinds ms
  | .reference :: .reference :: ms => .mark .andAnd :: modifierKinds ms

/-- The token of a type name. -/
def TypeName.kind : TypeName → TokenKind
  | .int => .keyword .intKw
  | .bool => .keyword .boolKw
  | .void => .keyword .voidKw
  | .auto => .keyword .autoKw
  | .named name => .ident name.name

/-- A keyword that may be left out. -/
def optionalKeyword (word : Keyword) (isThere : Bool) : List TokenKind :=
  if isThere then [.keyword word] else []

def TypeRef.printed (t : TypeRef) : List TokenKind :=
  optionalKeyword .constKw t.isConst ++ t.base.kind :: modifierKinds t.modifiers

def printedArgs : List Expr → List TokenKind
  | [] => []
  | e :: es => e.printed .lowest ++ es.flatMap fun e => .mark .comma :: e.printed .lowest

def Call.printed (c : Call) : List TokenKind :=
  .ident c.callee.name :: inParens (printedArgs c.args)

/-- What follows the name of a variable in its declaration. -/
def printedInit : Option Expr → List TokenKind
  | none => [.mark .semi]
  | some e => .mark .assign :: (e.printed .lowest ++ [.mark .semi])

def VarDecl.printed (d : VarDecl) : List TokenKind :=
  d.type.printed ++ .ident d.name.name :: printedInit d.init

mutual

/-- The kinds of the tokens of a printed statement.  Cleanup is not read again. -/
def Stmt.printed : Stmt → List TokenKind
  | .varDecl d => d.printed
  | .assign _ target value =>
    target.printed .lowest ++ .mark .assign :: (value.printed .lowest ++ [.mark .semi])
  | .call _ c => c.printed ++ [.mark .semi]
  | .block body => Block.printed body
  | .ifElse _ cond thenBody none =>
    .keyword .ifKw :: (inParens (cond.printed .lowest) ++ Block.printed thenBody)
  | .ifElse _ cond thenBody (some elseBody) =>
    .keyword .ifKw :: (inParens (cond.printed .lowest) ++
      (Block.printed thenBody ++ .keyword .elseKw :: Block.printed elseBody))
  | .whileLoop _ cond body =>
    .keyword .whileKw :: (inParens (cond.printed .lowest) ++ Block.printed body)
  | .forIn _ _ var iter body =>
    .keyword .forKw :: (inParens (.ident var.name :: .keyword .inKw :: iter.printed .lowest) ++
      Block.printed body)
  | .ret _ none => [.keyword .returnKw, .mark .semi]
  | .ret _ (some value) => .keyword .returnKw :: (value.printed .lowest ++ [.mark .semi])
  | .defer _ c => .keyword .deferKw :: (c.printed ++ [.mark .semi])
  | .cleanup _ => []

def Block.printed : BlockOf Stmt → List TokenKind
  | ⟨_, _, stmts⟩ => .mark .lbrace :: (printedStmts stmts ++ [.mark .rbrace])

def printedStmts : List Stmt → List TokenKind
  | [] => []
  | s :: ss => s.printed ++ printedStmts ss

end

/-- The tokens of the head of a special member of the class `name`. -/
def CtorKind.printed (name : String) : CtorKind → List TokenKind
  | .default => .ident name :: inParens []
  | .copy =>
    .ident name :: inParens [.keyword .constKw, .ident name, .mark .amp, .ident "other"]
  | .move => .ident name :: inParens [.ident name, .mark .andAnd, .ident "other"]
  | .destructor => .mark .tilde :: .ident name :: inParens []

def CtorBody.printed : CtorBody → List TokenKind
  | .defaulted => [.mark .assign, .keyword .defaultKw, .mark .semi]
  | .deleted => [.mark .assign, .ident "delete", .mark .semi]
  | .body block => Block.printed block

/-- The text of a member of the class `name`. -/
def Parser.Member.format (name : String) : Parser.Member → String
  | .field f => f.format
  | .ctor c => c.format name

def Parser.Member.printed (name : String) : Parser.Member → List TokenKind
  | .field f => f.type.printed ++ [.ident f.name.name, .mark .semi]
  | .ctor c =>
    optionalKeyword .explicitKw c.isExplicit ++ (c.kind.printed name ++ c.body.printed)

/-- The members of a class in the order in which they are printed. -/
def ClassDef.members (c : ClassDef) : List Parser.Member :=
  c.fields.map .field ++ c.ctors.map .ctor

def Parser.Item.format : Parser.Item → String
  | .ofFunction f => f.format
  | .ofClass c => c.format

def Parser.Item.printed : Parser.Item → List TokenKind
  | .ofFunction f =>
    .keyword .fnKw :: .ident f.name.name :: (inParens [] ++ Block.printed f.body)
  | .ofClass c =>
    .keyword .classKw :: .ident c.name.name :: .mark .lbrace ::
      (c.members.flatMap (Parser.Member.printed c.name.name) ++ [.mark .rbrace, .mark .semi])

/-- The items of a program in the order in which they are printed. -/
def Program.items (p : Program) : List Parser.Item :=
  p.classes.map .ofClass ++ p.functions.map .ofFunction

def Program.printed (p : Program) : List TokenKind :=
  p.items.flatMap Parser.Item.printed

end Printed

section Spelling

variable {text : List Char} {ks : List TokenKind}

theorem Apart.tail {rest : List Char} (h : Apart (c :: text) rest) :
    Apart text rest := by
  cases text with
  | nil => simp [Apart]
  | cons d ds => simpa [Apart] using h

/-- A token that nothing can make longer. -/
theorem Spells.cons_first {kind : TokenKind}
    (hfirst : ∀ rest, Piece.first c rest = ⟨.token kind, [c]⟩) (h : Spells text ks) :
    Spells (c :: text) (kind :: ks) := by
  intro rest hrest
  have hpieces : pieces (c :: (text ++ rest)) = ⟨.token kind, [c]⟩ :: pieces (text ++ rest) := by
    rw [pieces_cons, hfirst]
    rfl
  obtain ⟨hkinds, hfaults⟩ := h rest hrest.tail
  rw [cons_append, kindsOf, faultsOf, hpieces]
  exact ⟨congrArg (kind :: ·) hkinds, hfaults⟩

theorem Spells.cons_andAnd (h : Spells text ks) :
    Spells ('&' :: '&' :: text) (.mark .andAnd :: ks) := by
  intro rest hrest
  have hpieces : pieces ('&' :: '&' :: (text ++ rest)) =
      ⟨.token (.mark .andAnd), ['&', '&']⟩ :: pieces (text ++ rest) := by
    rw [pieces_cons]
    rfl
  obtain ⟨hkinds, hfaults⟩ := h rest hrest.tail.tail
  rw [cons_append, cons_append, kindsOf, faultsOf, hpieces]
  exact ⟨congrArg (TokenKind.mark .andAnd :: ·) hkinds, hfaults⟩

theorem Spells.cons_star (h : Spells text ks) : Spells ('*' :: text) (.mark .star :: ks) :=
  h.cons_first fun _ => rfl

theorem spells_modifiers (ms : List TypeModifier) :
    Spells (ms.flatMap fun m => m.format.toList) (modifierKinds ms) := by
  induction ms using modifierKinds.induct with
  | case1 => exact spells_nil
  | case2 ms ih => exact ih.cons_star
  | case3 => exact spells_mark .amp
  | case4 ms ih =>
    refine (spells_mark .amp).append ih.cons_star fun a ha b hb => ?_
    obtain rfl : '&' = a := Option.some.inj ha
    obtain rfl : '*' = b := Option.some.inj hb
    decide
  | case5 ms ih => exact ih.cons_andAnd

theorem joins_amp {a : Char} (h : isWordPart a = true) : joins a '&' = false := by
  have hamp : a ≠ '&' := by
    rintro rfl
    contradiction
  simp [joins, (by decide : isWordPart '&' = false), hamp]

/-- Modifiers do not go on with a word. -/
theorem apart_modifiers (htext : ∀ a ∈ text, isWordPart a = true) (ms : List TypeModifier) :
    Apart text (ms.flatMap fun m => m.format.toList) := by
  intro a ha b hb
  cases ms with
  | nil => simp at hb
  | cons m ms =>
    cases m with
    | pointer =>
      obtain rfl : '*' = b := Option.some.inj hb
      simp [joins, (by decide : isWordPart '*' = false)]
    | reference =>
      obtain rfl : '&' = b := Option.some.inj hb
      exact joins_amp (htext a (mem_of_getLast? ha))

theorem isWordPart_of_written (h : (TokenKind.ident name).Written) :
    ∀ a ∈ name.toList, isWordPart a = true := by
  intro a ha
  obtain ⟨c, cs, hchars, hc, hcs, -⟩ := h
  rw [hchars, mem_cons] at ha
  rcases ha with rfl | ha
  · rw [isWordPart, hc, Bool.true_or]
  · exact all_eq_true.1 hcs a ha

theorem spells_typeName {base : TypeName} (h : base.kind.Written) :
    Spells base.format.toList [base.kind] ∧ ∀ a ∈ base.format.toList, isWordPart a = true := by
  cases base with
  | int => exact ⟨spells_keyword .intKw, all_eq_true.1 (by decide)⟩
  | bool => exact ⟨spells_keyword .boolKw, all_eq_true.1 (by decide)⟩
  | void => exact ⟨spells_keyword .voidKw, all_eq_true.1 (by decide)⟩
  | auto => exact ⟨spells_keyword .autoKw, all_eq_true.1 (by decide)⟩
  | named name => exact ⟨spells_ident h, isWordPart_of_written h⟩

/-- A keyword before a blank. -/
theorem Spells.cons_keyword (word : Keyword) (h : Spells text ks) :
    Spells (word.text.toList ++ ' ' :: text) (.keyword word :: ks) :=
  (spells_keyword word).before rfl (h.cons_blank rfl)

theorem spells_optionalKeyword (word : Keyword) (isThere : Bool) (h : Spells text ks) :
    Spells ((if isThere then word.text ++ " " else "").toList ++ text)
      (optionalKeyword word isThere ++ ks) := by
  cases isThere with
  | false => exact h
  | true => simpa [optionalKeyword] using h.cons_keyword word

theorem spells_typeRef {t : TypeRef} (h : t.base.kind.Written) :
    Spells t.format.toList t.printed := by
  obtain ⟨hbase, hparts⟩ := spells_typeName h
  have hname := hbase.append (spells_modifiers t.modifiers) (apart_modifiers hparts _)
  have hall := spells_optionalKeyword .constKw t.isConst hname
  simpa [TypeRef.format, TypeRef.printed, Keyword.text, String.toList_join, flatMap_map]
    using hall

theorem spells_semi : Spells [';', '\n'] [.mark .semi] :=
  .cons_mark rfl rfl (spells_nil.cons_blank (c := '\n') rfl)

theorem Spells.assigned (h : Spells text ks) :
    Spells (' ' :: '=' :: ' ' :: text) (.mark .assign :: ks) :=
  ((spells_mark .assign).before rfl (h.cons_blank (c := ' ') rfl)).cons_blank rfl

theorem toList_indentation_succ (level : Nat) (text : List Char) :
    (indentation (level + 1)).toList ++ text =
      ' ' :: ' ' :: ' ' :: ' ' :: ((indentation level).toList ++ text) := by
  simp [indentation, replicate_succ, String.toList_join]

/-- Indentation is not seen. -/
theorem Spells.indented (h : Spells text ks) (level : Nat) :
    Spells ((indentation level).toList ++ text) ks := by
  induction level with
  | zero => exact h
  | succ level ih =>
    rw [toList_indentation_succ]
    exact (((ih.cons_blank rfl).cons_blank rfl).cons_blank rfl).cons_blank rfl

theorem apart_indented (hc : isSolid c = true) (level : Nat) (rest : List Char) :
    Apart text ((indentation level).toList ++ c :: rest) := by
  cases level with
  | zero => exact apart_solid hc text rest
  | succ level =>
    rw [toList_indentation_succ]
    exact apart_solid rfl text _

theorem toList_intercalate_cons (sep first : String) (more : List String) :
    (sep.intercalate (first :: more)).toList =
      first.toList ++ more.flatMap fun s => sep.toList ++ s.toList := by
  induction more generalizing first with
  | nil => simp
  | cons second more ih =>
    rw [String.intercalate_cons_cons, String.toList_append, String.toList_append, ih,
      flatMap_cons, append_assoc, append_assoc]

/-- The text of arguments after the first one. -/
def moreArgsText (es : List Expr) : List Char :=
  es.flatMap fun e => ',' :: ' ' :: e.format.toList

theorem apart_moreArgsText (text : List Char) (es : List Expr) : Apart text (moreArgsText es) := by
  cases es with
  | nil => simp [moreArgsText, Apart]
  | cons e es => exact apart_solid rfl text _

theorem spells_moreArgsText (h : ∀ e ∈ es, e.Writable) :
    Spells (moreArgsText es) (es.flatMap fun e => .mark .comma :: e.printed .lowest) := by
  induction es with
  | nil => exact spells_nil
  | cons e es ih =>
    have hfirst := (h e mem_cons_self).spells .lowest
    have hrest := ih fun e he => h e (mem_cons_of_mem _ he)
    have hboth := hfirst.append hrest (apart_moreArgsText _ es)
    exact .cons_mark (m := .comma) rfl rfl (hboth.cons_blank rfl)

theorem spells_args (h : ∀ e ∈ es, e.Writable) :
    Spells (", ".intercalate (es.map Expr.format)).toList (printedArgs es) := by
  cases es with
  | nil => exact spells_nil
  | cons e es =>
    have hfirst := (h e mem_cons_self).spells .lowest
    have hrest := spells_moreArgsText fun e he => h e (mem_cons_of_mem _ he)
    rw [map_cons, toList_intercalate_cons, flatMap_map]
    exact hfirst.append hrest (apart_moreArgsText _ es)

theorem spells_call {c : Call} (hname : (TokenKind.ident c.callee.name).Written)
    (hargs : ∀ e ∈ c.args, e.Writable) : Spells c.format.toList c.printed := by
  have hspells := (spells_ident hname).before rfl (spells_inParens (spells_args hargs))
  simpa [Call.format, Call.printed] using hspells

theorem spells_name (hname : (TokenKind.ident name).Written)
    (hc : isSolid c = true) (h : Spells (c :: text) ks) :
    Spells (name.toList ++ c :: text) (.ident name :: ks) :=
  (spells_ident hname).before hc h

/-- A name before a reference mark. -/
theorem spells_name_amp (hname : (TokenKind.ident name).Written)
    (h : Spells ('&' :: text) ks) : Spells (name.toList ++ '&' :: text) (.ident name :: ks) := by
  refine (spells_ident hname).append h fun a ha b hb => ?_
  obtain rfl : '&' = b := Option.some.inj hb
  have hpart := isWordPart_of_written hname a (mem_of_getLast? ha)
  exact joins_amp hpart

/-- An expression up to the end of its line. -/
theorem Expr.Writable.spells_line {e : Expr} (h : e.Writable) :
    Spells (e.format.toList ++ [';', '\n']) (e.printed .lowest ++ [.mark .semi]) :=
  (h.spells .lowest).before rfl spells_semi

/-- A condition and what follows it. -/
theorem Spells.after_parens {inner : List Char} {ks' : List TokenKind} (hinner : Spells inner ks')
    (h : Spells text ks) : Spells ('(' :: (inner ++ ')' :: ' ' :: text)) (inParens ks' ++ ks) := by
  have hspells := (spells_inParens hinner).before rfl (h.cons_blank (c := ' ') rfl)
  simpa using hspells

theorem spells_varDecl {d : VarDecl} (htype : d.type.base.kind.Written)
    (hname : (TokenKind.ident d.name.name).Written) (hinit : ∀ e ∈ d.init, e.Writable)
    (level : Nat) : Spells ((Stmt.varDecl d).format level).toList d.printed := by
  obtain ⟨id, span, type, name, init⟩ := d
  have hline {c : Char} {text : List Char} {ks : List TokenKind} (hc : isSolid c = true)
      (hend : Spells (c :: text) ks) :=
    ((spells_typeRef htype).before rfl
      ((spells_name hname hc hend).cons_blank (c := ' ') rfl)).indented level
  cases init with
  | none => simpa [Stmt.format, VarDecl.printed, printedInit] using hline rfl spells_semi
  | some e =>
    have hinit' := (hinit e rfl).spells_line.assigned
    simpa [Stmt.format, VarDecl.printed, printedInit] using hline rfl hinit'

/-- What ends a line stays apart from all that follows. -/
theorem apart_of_getLast? (h : text.getLast? = some '\n') (rest : List Char) : Apart text rest := by
  intro a ha b _
  obtain rfl : '\n' = a := Option.some.inj (h.symm.trans ha)
  exact (joins_solid rfl b).2

/-- Lines one below the other. -/
theorem spells_flatMap {α : Type} (lines : α → List Char) (kinds : α → List TokenKind)
    (as : List α) (h : ∀ a ∈ as, Spells (lines a) (kinds a) ∧ (lines a).getLast? = some '\n') :
    Spells (as.flatMap lines) (as.flatMap kinds) := by
  induction as with
  | nil => exact spells_nil
  | cons a as ih =>
    obtain ⟨hfirst, hend⟩ := h a mem_cons_self
    have hrest := ih fun a ha => h a (mem_cons_of_mem _ ha)
    rw [flatMap_cons, flatMap_cons]
    exact hfirst.append hrest (apart_of_getLast? hend _)

/-- Every printed statement ends its line. -/
theorem getLast?_format (s : Stmt) (level : Nat) :
    (s.format level).toList.getLast? = some '\n' := by
  cases s with
  | ifElse span cond thenBody elseBody =>
    cases elseBody <;> simp [Stmt.format, List.getLast?_cons]
  | ret span value => cases value <;> simp [Stmt.format, List.getLast?_cons]
  | _ => simp [Stmt.format, List.getLast?_cons]

end Spelling

/- The texts of statements and blocks, over the languages of the expressions and blocks in them. -/
section Statements

variable {L : Language Expr} {B : Language Block} {ks : List TokenKind}

theorem eq_of_baseType {base : TypeName} (h : BaseType ks base) : ks = [base.kind] := by
  cases h <;> rfl

theorem kind_mem_of_writtenType {t : TypeRef} (h : WrittenType ks t) : t.base.kind ∈ ks := by
  cases h with
  | plain span modifiers h => simp [eq_of_baseType h]
  | const span modifiers h => simp [eq_of_baseType h]

variable (hexpr : ∀ ks e, (∀ k ∈ ks, k.Written) → L ks e → e.Writable)
include hexpr

theorem writable_of_args (hks : ∀ k ∈ ks, k.Written) (h : Args L ks es) :
    ∀ e ∈ es, e.Writable := by
  have hmore {ks : List TokenKind} {es : List Expr} (h : MoreArgs L ks es) :
      (∀ k ∈ ks, k.Written) → ∀ e ∈ es, e.Writable := by
    induction h with
    | nil => simp
    | cons hfirst hrest ih =>
      intro hks e he
      rcases mem_cons.1 he with rfl | he
      · exact hexpr _ _ (fun k hk => hks k (by simp [hk])) hfirst
      · exact ih (fun k hk => hks k (by simp [hk])) e he
  cases h with
  | none => simp
  | some hfirst hrest =>
    intro e he
    rcases mem_cons.1 he with rfl | he
    · exact hexpr _ _ (fun k hk => hks k (by simp [hk])) hfirst
    · exact hmore hrest (fun k hk => hks k (by simp [hk])) e he

theorem spells_callOf {c : Call} (hks : ∀ k ∈ ks, k.Written) (h : CallOf L ks c) :
    Spells c.format.toList c.printed := by
  cases h with
  | call id span callee hargs =>
    have hwritten := writable_of_args hexpr (fun k hk => hks k (by simp [hk])) hargs
    exact spells_call (hks _ mem_cons_self) hwritten

theorem spells_declaration {d : VarDecl} (hks : ∀ k ∈ ks, k.Written) (h : Declaration L ks d)
    (level : Nat) : Spells ((Stmt.varDecl d).format level).toList d.printed := by
  cases h with
  | plain id span name htype =>
    refine spells_varDecl (hks _ ?_) (hks _ ?_) (by simp) level
    · simp [kind_mem_of_writtenType htype]
    · simp
  | init id span name htype hinit =>
    refine spells_varDecl (hks _ ?_) (hks _ ?_) (fun e he => ?_) level
    · simp [kind_mem_of_writtenType htype]
    · simp
    · obtain rfl := Option.some.inj he
      exact hexpr _ _ (fun k hk => hks k (by simp [hk])) hinit

variable (hblock : ∀ ks b, (∀ k ∈ ks, k.Written) → B ks b → ∀ level,
  Spells (Block.format level b).toList (Block.printed b))
include hblock

/-- A printed statement is scanned into its tokens. -/
theorem spells_statement {s : Stmt} (hks : ∀ k ∈ ks, k.Written) (h : StatementForm L B ks s)
    (level : Nat) : Spells (s.format level).toList s.printed := by
  have hnewline {text : List Char} {ks : List TokenKind} (h : Spells text ks) :
      Spells (text ++ ['\n']) ks := by
    simpa using h.before rfl (spells_nil.cons_blank (c := '\n') rfl)
  cases h with
  | decl h => exact spells_declaration hexpr hks h level
  | assign h hdecl hcall =>
    cases h with
    | assign span htarget hvalue =>
      have htarget' := hexpr _ _ (fun k hk => hks k (by simp [hk])) htarget
      have hvalue' := hexpr _ _ (fun k hk => hks k (by simp [hk])) hvalue
      have hline := (htarget'.spells .lowest).before rfl hvalue'.spells_line.assigned
      simpa [Stmt.format, Stmt.printed, Expr.format] using hline.indented level
  | call span h =>
    have hcall := spells_callOf hexpr (fun k hk => hks k (by simp [hk])) h
    simpa [Stmt.format, Stmt.printed] using (hcall.before rfl spells_semi).indented level
  | block h =>
    have hbody := hblock _ _ hks h level
    simpa [Stmt.format, Stmt.printed] using (hnewline hbody).indented level
  | ifThen span hcond hbody =>
    have hcond' := hexpr _ _ (fun k hk => hks k (by simp [hk])) hcond
    have hbody' := hblock _ _ (fun k hk => hks k (by simp [hk])) hbody level
    have hline := ((hcond'.spells .lowest).after_parens (hnewline hbody')).cons_keyword .ifKw
    simpa [Stmt.format, Stmt.printed, Expr.format, Keyword.text] using hline.indented level
  | ifElse span hcond hthen helse =>
    have hcond' := hexpr _ _ (fun k hk => hks k (by simp [hk])) hcond
    have hthen' := hblock _ _ (fun k hk => hks k (by simp [hk])) hthen level
    have helse' := hblock _ _ (fun k hk => hks k (by simp [hk])) helse level
    have hbodies := hthen'.before rfl
      (((hnewline helse').cons_keyword .elseKw).cons_blank (c := ' ') rfl)
    have hline := ((hcond'.spells .lowest).after_parens hbodies).cons_keyword .ifKw
    simpa [Stmt.format, Stmt.printed, Expr.format, Keyword.text] using hline.indented level
  | whileLoop span hcond hbody =>
    have hcond' := hexpr _ _ (fun k hk => hks k (by simp [hk])) hcond
    have hbody' := hblock _ _ (fun k hk => hks k (by simp [hk])) hbody level
    have hline := ((hcond'.spells .lowest).after_parens (hnewline hbody')).cons_keyword .whileKw
    simpa [Stmt.format, Stmt.printed, Expr.format, Keyword.text] using hline.indented level
  | forIn id span var hiter hbody =>
    have hiter' := hexpr _ _ (fun k hk => hks k (by simp [hk])) hiter
    have hbody' := hblock _ _ (fun k hk => hks k (by simp [hk])) hbody level
    have hinner := spells_name (hks (.ident var.name) (by simp)) rfl
      (((hiter'.spells .lowest).cons_keyword .inKw).cons_blank (c := ' ') rfl)
    have hline := (hinner.after_parens (hnewline hbody')).cons_keyword .forKw
    simpa [Stmt.format, Stmt.printed, Expr.format, Keyword.text] using hline.indented level
  | ret span =>
    have hline := (spells_keyword .returnKw).before rfl spells_semi
    simpa [Stmt.format, Stmt.printed, Keyword.text] using hline.indented level
  | retValue span h =>
    have hvalue := hexpr _ _ (fun k hk => hks k (by simp [hk])) h
    have hline := hvalue.spells_line.cons_keyword .returnKw
    simpa [Stmt.format, Stmt.printed, Keyword.text] using hline.indented level
  | defer span h =>
    have hcall := spells_callOf hexpr (fun k hk => hks k (by simp [hk])) h
    have hline := (hcall.before rfl spells_semi).cons_keyword .deferKw
    simpa [Stmt.format, Stmt.printed, Keyword.text] using hline.indented level

theorem spells_stmts {ss : List Stmt} (hks : ∀ k ∈ ks, k.Written) (h : Many (Statement L B) ks ss)
    (level : Nat) : Spells (formatStmts level ss).toList (printedStmts ss) := by
  induction h with
  | nil => exact spells_nil
  | @cons ks ks' s ss hfirst hrest ih =>
    have hstmt := spells_statement hexpr hblock (fun k hk => hks k (by simp [hk])) hfirst.1 level
    have hstmts := ih fun k hk => hks k (by simp [hk])
    have hboth := hstmt.append hstmts (apart_of_getLast? (getLast?_format s level) _)
    simpa [formatStmts, printedStmts] using hboth

theorem spells_braces {b : Block} (hks : ∀ k ∈ ks, k.Written) (h : Braces (Statement L B) ks b)
    (level : Nat) : Spells (Block.format level b).toList (Block.printed b) := by
  cases h with
  | @braces id span ks stmts h =>
    have hstmts := spells_stmts hexpr hblock (fun k hk => hks k (by simp [hk])) h (level + 1)
    have hclose := (spells_mark .rbrace).indented level
    have hbody := hstmts.append hclose (apart_indented rfl level [])
    have hopen := Spells.cons_mark (m := .lbrace) rfl rfl (hbody.cons_blank (c := '\n') rfl)
    simpa [Block.format, Block.printed, Mark.chars] using hopen

end Statements

/-- A printed block is scanned into its tokens. -/
theorem spells_block (levels : Nat) {ks : List TokenKind} {b : Block} (hks : ∀ k ∈ ks, k.Written)
    (h : blockAt levels ks b) (level : Nat) :
    Spells (Block.format level b).toList (Block.printed b) := by
  induction levels generalizing ks b level with
  | zero => exact h.elim
  | succ levels ih =>
    exact spells_braces (fun _ _ => writable_of_expr levels) (fun _ _ hks h => ih hks h) hks h
      level

section Items

variable {ks : List TokenKind} {name : String}

theorem spells_ctorBody {body : CtorBody} (hks : ∀ k ∈ ks, k.Written) (h : CtorBodyOf ks body) :
    Spells body.format.toList body.printed := by
  have hdelete : (TokenKind.ident "delete").Written :=
    ⟨'d', "elete".toList, rfl, rfl, by decide, by decide⟩
  cases h with
  | defaulted =>
    have hline := ((spells_keyword .defaultKw).before rfl spells_semi).assigned
    simpa [CtorBody.format, CtorBody.printed, Keyword.text] using hline
  | deleted =>
    have hline := ((spells_ident hdelete).before rfl spells_semi).assigned
    simpa [CtorBody.format, CtorBody.printed] using hline
  | body h =>
    have hblock := (spells_block maxNesting hks h 1).before rfl
      (spells_nil.cons_blank (c := '\n') rfl)
    simpa [CtorBody.format, CtorBody.printed] using hblock.cons_blank (c := ' ') rfl

/-- The head of a special member, before what defines it. -/
theorem spells_ctorKind {text : List Char} {ks' : List TokenKind}
    (hname : (TokenKind.ident name).Written) (kind : CtorKind) (h : Spells (' ' :: text) ks') :
    Spells ((kind.format name).toList ++ ' ' :: text) (kind.printed name ++ ks') := by
  have hother : (TokenKind.ident "other").Written :=
    ⟨'o', "ther".toList, rfl, rfl, by decide, by decide⟩
  have hparens {inner : List Char} {ks : List TokenKind} (hinner : Spells inner ks) :=
    spells_name hname rfl ((spells_inParens hinner).before rfl h)
  cases kind with
  | default => simpa [CtorKind.format, CtorKind.printed] using hparens spells_nil
  | copy =>
    have hparam := (spells_name_amp hname ((spells_mark .amp).before rfl
      ((spells_ident hother).cons_blank (c := ' ') rfl))).cons_keyword .constKw
    simpa [CtorKind.format, CtorKind.printed, Keyword.text, Mark.chars] using hparens hparam
  | move =>
    have hparam := spells_name_amp hname
      ((spells_ident hother).cons_blank (c := ' ') rfl).cons_andAnd
    simpa [CtorKind.format, CtorKind.printed] using hparens hparam
  | destructor =>
    have hhead := Spells.cons_mark (m := .tilde) rfl rfl (hparens spells_nil)
    simpa [CtorKind.format, CtorKind.printed] using hhead

/-- A printed member is scanned into its tokens, and ends its line. -/
theorem spells_member {m : Parser.Member} (hname : (TokenKind.ident name).Written)
    (hks : ∀ k ∈ ks, k.Written) (h : MemberOf name ks m) :
    Spells (m.format name).toList (m.printed name) ∧
      (m.format name).toList.getLast? = some '\n' := by
  have hctor {c : CtorDecl} {ks : List TokenKind} (hks : ∀ k ∈ ks, k.Written)
      (hbody : CtorBodyOf ks c.body) :
      Spells (Parser.Member.format name (.ctor c)).toList (Parser.Member.printed name (.ctor c)) ∧
        (Parser.Member.format name (.ctor c)).toList.getLast? = some '\n' := by
    obtain ⟨text, htext⟩ : ∃ text, c.body.format.toList = ' ' :: text := by
      cases c.body <;> simp [CtorBody.format]
    have hline := spells_ctorBody hks hbody
    rw [htext] at hline
    have hhead := (spells_optionalKeyword .explicitKw c.isExplicit
      (spells_ctorKind hname c.kind hline)).indented 1
    constructor
    · simpa [Parser.Member.format, Parser.Member.printed, CtorDecl.format, Keyword.text, htext]
        using hhead
    · cases hdefined : c.body <;>
        simp [Parser.Member.format, CtorDecl.format, CtorBody.format, hdefined, List.getLast?_cons]
  cases h with
  | field span fieldName h =>
    have htype := spells_typeRef (hks _ (mem_append_left _ (kind_mem_of_writtenType h)))
    have hfield := spells_name (hks (.ident fieldName.name) (by simp)) rfl spells_semi
    have hline := (htype.before rfl (hfield.cons_blank (c := ' ') rfl)).indented 1
    constructor
    · simpa [Parser.Member.format, Parser.Member.printed, FieldDef.format] using hline
    · simp [Parser.Member.format, FieldDef.format, List.getLast?_cons]
  | ctor span hparams hbody | explicitCtor span hparams hbody =>
    exact hctor (fun k hk => hks k (by simp [hk])) hbody
  | destructor span hbody => exact hctor (fun k hk => hks k (by simp [hk])) hbody

/-- What each item of a derived list keeps of the derivation. -/
theorem exists_of_mem_many {α : Type} {item : Language α} {as : List α} (h : Many item ks as)
    {a : α} (ha : a ∈ as) : ∃ ks', (∀ k ∈ ks', k ∈ ks) ∧ item ks' a := by
  induction h with
  | nil => simp at ha
  | @cons ks ks' b bs hfirst hrest ih =>
    rcases mem_cons.1 ha with rfl | ha
    · exact ⟨ks, fun k hk => mem_append_left _ hk, hfirst⟩
    · obtain ⟨ks'', hsub, hitem⟩ := ih ha
      exact ⟨ks'', fun k hk => mem_append_right _ (hsub k hk), hitem⟩

/-- A class has the members that it is read from, in an order of its own. -/
theorem perm_members {c : ClassDef} {members : List Parser.Member}
    (hfields : c.fields = members.filterMap Parser.Member.field?)
    (hctors : c.ctors = members.filterMap Parser.Member.ctor?) : c.members.Perm members := by
  rw [ClassDef.members, hfields, hctors]
  clear hfields hctors
  induction members with
  | nil => exact .refl _
  | cons m members ih =>
    cases m with
    | field f => exact ih.cons _
    | ctor c => exact perm_middle.trans (ih.cons _)

theorem perm_items {p : Program} {items : List Parser.Item}
    (hfunctions : p.functions = items.filterMap Parser.Item.function?)
    (hclasses : p.classes = items.filterMap Parser.Item.classDef?) : p.items.Perm items := by
  rw [Program.items, hfunctions, hclasses]
  clear hfunctions hclasses
  induction items with
  | nil => exact .refl _
  | cons i items ih =>
    cases i with
    | ofClass c => exact ih.cons _
    | ofFunction f => exact perm_middle.trans (ih.cons _)

theorem toList_format_class (c : ClassDef) :
    c.format.toList = Keyword.classKw.text.toList ++ ' ' :: (c.name.name.toList ++ ' ' :: '\x7b' ::
      '\n' :: (c.members.flatMap (fun m => (m.format c.name.name).toList) ++
        ['\x7d', ';', '\n'])) := by
  simp [ClassDef.format, ClassDef.members, String.toList_join, flatMap_map,
    Parser.Member.format, Keyword.text]

/-- A printed item is scanned into its tokens, and ends its line. -/
theorem spells_item {i : Parser.Item} (hks : ∀ k ∈ ks, k.Written) (h : ItemOf ks i) :
    Spells i.format.toList i.printed ∧ i.format.toList.getLast? = some '\n' := by
  cases h with
  | function id span fnName hbody =>
    have hblock := (spells_block maxNesting (fun k hk => hks k (by simp [hk])) hbody 0).before rfl
      (spells_nil.cons_blank (c := '\n') rfl)
    have hhead := (spells_name (hks (.ident fnName.name) (by simp)) rfl
      (spells_nil.after_parens hblock)).cons_keyword .fnKw
    constructor
    · simpa [Parser.Item.format, Parser.Item.printed, Function.format, Keyword.text] using hhead
    · simp [Parser.Item.format, Function.format, List.getLast?_cons]
  | @classDef id span className ks ks' members hmembers hsemi =>
    have hname : (TokenKind.ident className.name).Written := hks _ (by simp)
    have hbody := spells_flatMap (fun m => (m.format className.name).toList)
      (Parser.Member.printed className.name)
      (ClassDef.members ⟨id, span, className, members.filterMap Parser.Member.field?,
        members.filterMap Parser.Member.ctor?⟩) fun m hm => by
          obtain ⟨ks', hsub, hm'⟩ := exists_of_mem_many hmembers ((perm_members rfl rfl).subset hm)
          exact spells_member hname (fun k hk => hks k (by simp [hsub k hk])) hm'
    have hend := Spells.cons_mark (m := .rbrace) rfl rfl spells_semi
    have hopen := Spells.cons_mark (m := .lbrace) rfl rfl
      ((hbody.before rfl hend).cons_blank (c := '\n') rfl)
    have hhead := (spells_name hname rfl (hopen.cons_blank (c := ' ') rfl)).cons_keyword .classKw
    constructor
    · rw [Parser.Item.format, toList_format_class]
      exact hhead
    · rw [Parser.Item.format, toList_format_class]
      simp [List.getLast?_cons]

/-- A printed program is scanned into its tokens. -/
theorem spells_program {p : Program} (hks : ∀ k ∈ ks, k.Written) (h : ProgramOf ks p) :
    Spells p.format.toList p.printed := by
  obtain ⟨items, hitems, hfunctions, hclasses⟩ := h
  have hspells : ∀ i ∈ p.items,
      Spells i.format.toList i.printed ∧ i.format.toList.getLast? = some '\n' := by
    intro i hi
    obtain ⟨ks', hsub, hi'⟩ :=
      exists_of_mem_many hitems ((perm_items hfunctions hclasses).subset hi)
    exact spells_item (fun k hk => hks k (hsub k hk)) hi'
  have hformat : p.format = "\n".intercalate (p.items.map Parser.Item.format) := by
    simp [Program.format, Program.items, Function.comp_def, Parser.Item.format]
  rw [hformat, Program.printed]
  cases hall : p.items with
  | nil => exact spells_nil
  | cons i is =>
    rw [hall] at hspells
    obtain ⟨hfirst, hend⟩ := hspells i mem_cons_self
    have hrest := spells_flatMap (fun i => '\n' :: i.format.toList) Parser.Item.printed is
      fun i hi => by
        obtain ⟨hitem, hend⟩ := hspells i (mem_cons_of_mem _ hi)
        exact ⟨hitem.cons_blank rfl, by rw [List.getLast?_cons, hend]; rfl⟩
    rw [map_cons, toList_intercalate_cons, flatMap_map, flatMap_cons]
    exact hfirst.append hrest (apart_of_getLast? hend _)

end Items

end DeferLang
