import DeferLang.Proofs.LongestMatch
import DeferLang.Proofs.PrintedProgram

/-!
# Formatting is stable

The tokens of a printed program are a derivation of the program if the program
is clear: no target of an assignment, without the parentheses that printing
leaves out, begins like a jump or a declaration, and no type has two references
in a row, which are printed as one mark.  So a clear program is read back from
its printed text, and printed the same again.
-/

namespace DeferLang

open List Grammar

section Clear

/-- Whether tokens begin with the identifier `break` or `continue`. -/
def beginsJump : List TokenKind → Bool
  | .ident name :: _ => name = "break" || name = "continue"
  | _ => false

/-- Whether tokens begin `('*'|'&')* IDENT`. -/
def modifiersThenName : List TokenKind → Bool
  | .mark .star :: ks => modifiersThenName ks
  | .mark .amp :: ks => modifiersThenName ks
  | .ident _ :: _ => true
  | _ => false

/-- Whether tokens begin `IDENT ('*'|'&')* IDENT`. -/
def beginsDeclaration : List TokenKind → Bool
  | .ident _ :: ks => modifiersThenName ks
  | _ => false

/-- Whether no two references stand in a row. -/
def separate : List TypeModifier → Bool
  | .reference :: .reference :: _ => false
  | _ :: ms => separate ms
  | [] => true

mutual

/-- Whether a printed statement is read as the same form of statement. -/
def Stmt.isClear : Stmt → Bool
  | .varDecl d => separate d.type.modifiers
  | .assign _ target _ =>
    !beginsJump (target.printed .lowest) && !beginsDeclaration (target.printed .lowest)
  | .block body => Block.isClear body
  | .ifElse _ _ thenBody none => Block.isClear thenBody
  | .ifElse _ _ thenBody (some elseBody) => Block.isClear thenBody && Block.isClear elseBody
  | .whileLoop _ _ body => Block.isClear body
  | .forIn _ _ _ _ body => Block.isClear body
  | .call _ _ => true
  | .ret _ _ => true
  | .defer _ _ => true
  | .cleanup _ => true

def Block.isClear : BlockOf Stmt → Bool
  | ⟨_, _, stmts⟩ => areClear stmts

def areClear : List Stmt → Bool
  | [] => true
  | s :: ss => s.isClear && areClear ss

end

def Parser.Member.isClear : Parser.Member → Bool
  | .field f => separate f.type.modifiers
  | .ctor ⟨_, _, _, .body block⟩ => Block.isClear block
  | .ctor _ => true

def Parser.Item.isClear : Parser.Item → Bool
  | .ofFunction f => Block.isClear f.body
  | .ofClass c => c.members.all Parser.Member.isClear

/-- Whether all statements and fields of a program are clear. -/
def Program.isClear (p : Program) : Bool :=
  p.items.all Parser.Item.isClear

end Clear

section Beginnings

variable {ks rest : List TokenKind}

theorem beginsJump_iff : BeginsJump ks ↔ beginsJump ks = true := by
  constructor
  · rintro ⟨rest, rfl | rfl⟩ <;> rfl
  · intro h
    unfold beginsJump at h
    split at h
    · rename_i name rest
      rcases (by simpa using h : name = "break" ∨ name = "continue") with rfl | rfl
      · exact ⟨rest, .inl rfl⟩
      · exact ⟨rest, .inr rfl⟩
    · contradiction

/-- Only the first token tells a jump. -/
theorem not_beginsJump_of_head? {ks' : List TokenKind} (h : ¬BeginsJump ks)
    (hhead : ks'.head? = ks.head?) : ¬BeginsJump ks' := by
  rw [beginsJump_iff] at h ⊢
  cases ks' with
  | nil => simp [beginsJump]
  | cons k' ks' =>
    cases ks with
    | nil => contradiction
    | cons k ks =>
      obtain rfl := Option.some.inj hhead
      cases k' <;> exact h

/-- A declaration begins before what can stand behind its name. -/
theorem beginsDeclaration_of_assigned (hne : ks ≠ [])
    (h : BeginsDeclaration (ks ++ .mark .assign :: rest)) : beginsDeclaration ks = true := by
  have hname (ms : List TypeModifier) (name : String) {ks more : List TokenKind}
      (h : ks ++ .mark .assign :: rest = ms.map TypeModifier.kind ++ .ident name :: more) :
      modifiersThenName ks = true := by
    induction ms generalizing ks with
    | nil =>
      cases ks with
      | nil => simp at h
      | cons k ks =>
        obtain ⟨rfl, -⟩ := List.cons.inj h
        rfl
    | cons m ms ih =>
      cases ks with
      | nil => cases m <;> simp [TypeModifier.kind] at h
      | cons k ks =>
        obtain ⟨rfl, htail⟩ := List.cons.inj h
        have hrest : modifiersThenName ks = true := ih htail
        cases m <;> exact hrest
  obtain ⟨name, name', ms, more, h⟩ := h
  cases ks with
  | nil => contradiction
  | cons k ks =>
    obtain ⟨rfl, htail⟩ := List.cons.inj h
    exact hname ms name' htail

/-- Tokens that do not begin a call. -/
def Uncalled (ks : List TokenKind) : Prop :=
  ks ≠ [] ∧ ¬BeginsCall ks

theorem Uncalled.append (h : Uncalled ks) (hrest : rest.head? ≠ some (.mark .lparen)) :
    Uncalled (ks ++ rest) := by
  refine ⟨by simp [h.1], ?_⟩
  rintro ⟨name, more, hcall⟩
  match ks, h.1 with
  | [k], _ =>
    obtain ⟨-, rfl⟩ := List.cons.inj hcall
    exact hrest rfl
  | k :: k' :: ks, _ =>
    obtain ⟨rfl, htail⟩ := List.cons.inj hcall
    obtain ⟨rfl, -⟩ := List.cons.inj htail
    exact h.2 ⟨name, ks, rfl⟩

/-- In an expression no parenthesis opens behind a name. -/
theorem uncalled_of_expr {levels : Nat} {e : Expr} (h : exprAt levels ks e) : Uncalled ks := by
  have haccess {L : Language Expr} {ks : List TokenKind} {e : Expr} (h : Access L ks e) :
      Uncalled ks := by
    induction h with
    | primary h =>
      refine ⟨by cases h <;> simp, ?_⟩
      rintro ⟨name, more, hcall⟩
      cases h <;> simp at hcall
    | field id span name h ih => exact ih.append (by simp)
  have hchain {level : Precedence} {operand : Language Expr}
      (hoperand : ∀ ks e, operand ks e → Uncalled ks) {ks : List TokenKind} {e : Expr}
      (h : Chain level operand ks e) : Uncalled ks := by
    induction h with
    | operand h => exact hoperand _ _ h
    | @binary id span opSpan op ks ks' left right hop hleft hright ih =>
      exact ih.append (by cases op <;> simp [BinOp.mark])
  cases levels with
  | zero => exact h.elim
  | succ levels =>
    exact hchain (fun _ _ => hchain fun _ _ => hchain fun _ _ => hchain fun _ _ => haccess) h

end Beginnings

section Derivation

variable {ks : List TokenKind}

/-- References that stay apart are read one by one. -/
theorem modifierKinds_of_separate {ms : List TypeModifier} (h : separate ms = true) :
    modifierKinds ms = ms.map TypeModifier.kind := by
  induction ms using modifierKinds.induct with
  | case1 => rfl
  | case2 ms ih => simpa [modifierKinds, TypeModifier.kind] using ih h
  | case3 => rfl
  | case4 ms ih => simpa [modifierKinds, TypeModifier.kind] using ih h
  | case5 ms ih => contradiction

theorem writtenType_printed {t : TypeRef} (h : WrittenType ks t)
    (hclear : separate t.modifiers = true) : ks = t.printed := by
  cases h with
  | plain span modifiers h | const span modifiers h =>
    rw [eq_of_baseType h, TypeRef.printed, modifierKinds_of_separate hclear]
    rfl

variable {levels : Nat}

theorem args_printed {es : List Expr} (h : Args (exprAt levels) ks es) :
    Args (exprAt levels) (printedArgs es) es := by
  have hmore {ks : List TokenKind} {es : List Expr} (h : MoreArgs (exprAt levels) ks es) :
      MoreArgs (exprAt levels) (es.flatMap fun e => .mark .comma :: e.printed .lowest) es := by
    induction h with
    | nil => exact .nil
    | cons hfirst hrest ih => exact .cons (exprAt_printed hfirst) ih
  cases h with
  | none => exact .none
  | some hfirst hrest => exact .some (exprAt_printed hfirst) (hmore hrest)

theorem callOf_printed {c : Call} (h : CallOf (exprAt levels) ks c) :
    CallOf (exprAt levels) c.printed c ∧ c.printed.head? = ks.head? := by
  cases h with
  | call id span callee hargs => exact ⟨.call id span callee (args_printed hargs), rfl⟩

theorem declaration_printed {d : VarDecl} (h : Declaration (exprAt levels) ks d)
    (hclear : separate d.type.modifiers = true) :
    Declaration (exprAt levels) d.printed d ∧ d.printed.head? = ks.head? := by
  cases h with
  | plain id span name htype =>
    obtain rfl := writtenType_printed htype hclear
    exact ⟨.plain id span name htype, rfl⟩
  | init id span name htype hinit =>
    obtain rfl := writtenType_printed htype hclear
    refine ⟨.init id span name htype (exprAt_printed hinit), ?_⟩
    simp [VarDecl.printed, List.head?_append]

/-- The printed form of a clear statement is a form of the same statement. -/
theorem statement_printed {s : Stmt}
    (hblock : ∀ ks b, blockAt levels ks b → Block.isClear b = true →
      blockAt levels (Block.printed b) b)
    (h : Statement (exprAt levels) (blockAt levels) ks s) (hclear : s.isClear = true) :
    Statement (exprAt levels) (blockAt levels) s.printed s := by
  obtain ⟨hform, hjump⟩ := h
  have hkeyword {word : Keyword} {ks : List TokenKind} : ¬BeginsJump (.keyword word :: ks) := by
    simp [beginsJump_iff, beginsJump]
  cases hform with
  | decl h =>
    obtain ⟨hdecl, hhead⟩ := declaration_printed h hclear
    exact ⟨.decl hdecl, not_beginsJump_of_head? hjump hhead⟩
  | assign h hdecl hcall =>
    cases h with
    | @assign span _ _ target value htarget hvalue =>
      simp only [Stmt.isClear, Bool.and_eq_true, Bool.not_eq_true'] at hclear
      have htarget' := exprAt_printed htarget
      obtain ⟨hne, -⟩ := uncalled_of_expr htarget'
      refine ⟨.assign (.assign span htarget' (exprAt_printed hvalue)) ?_ ?_, ?_⟩
      · intro h
        rw [beginsDeclaration_of_assigned hne h] at hclear
        simp at hclear
      · exact ((uncalled_of_expr htarget').append (by simp)).2
      · have htargetJump : ¬BeginsJump (target.printed .lowest) := by
          rw [beginsJump_iff, hclear.1]
          simp
        exact not_beginsJump_of_head? htargetJump (List.head?_append_of_ne_nil _ hne)
  | call span h =>
    obtain ⟨hcall, hhead⟩ := callOf_printed h
    refine ⟨.call span hcall, not_beginsJump_of_head? hjump ?_⟩
    rw [Stmt.printed, List.head?_append, List.head?_append, hhead]
  | @block _ b h =>
    refine ⟨.block (hblock _ _ h hclear), ?_⟩
    obtain ⟨id, span, stmts⟩ := b
    simp [beginsJump_iff, Stmt.printed, Block.printed, beginsJump]
  | ifThen span hcond hbody =>
    have hform := StatementForm.ifThen span (exprAt_printed hcond) (hblock _ _ hbody hclear)
    exact ⟨by simpa [Stmt.printed, inParens] using hform, hkeyword⟩
  | ifElse span hcond hthen helse =>
    simp only [Stmt.isClear, Bool.and_eq_true] at hclear
    have hform := StatementForm.ifElse span (exprAt_printed hcond)
      (hblock _ _ hthen hclear.1) (hblock _ _ helse hclear.2)
    exact ⟨by simpa [Stmt.printed, inParens] using hform, hkeyword⟩
  | whileLoop span hcond hbody =>
    have hform := StatementForm.whileLoop span (exprAt_printed hcond) (hblock _ _ hbody hclear)
    exact ⟨by simpa [Stmt.printed, inParens] using hform, hkeyword⟩
  | forIn id span var hiter hbody =>
    have hform := StatementForm.forIn id span var (exprAt_printed hiter)
      (hblock _ _ hbody hclear)
    exact ⟨by simpa [Stmt.printed, inParens] using hform, hkeyword⟩
  | ret span => exact ⟨.ret span, hkeyword⟩
  | retValue span h => exact ⟨.retValue span (exprAt_printed h), hkeyword⟩
  | defer span h => exact ⟨.defer span (callOf_printed h).1, hkeyword⟩

/-- The printed form of a clear block is a form of the block. -/
theorem blockAt_printed (levels : Nat) {ks : List TokenKind} {b : Block} (h : blockAt levels ks b)
    (hclear : Block.isClear b = true) : blockAt levels (Block.printed b) b := by
  induction levels generalizing ks b with
  | zero => exact h.elim
  | succ levels ih =>
    have hmany {ks : List TokenKind} {ss : List Stmt}
        (h : Many (Statement (exprAt levels) (blockAt levels)) ks ss)
        (hclear : areClear ss = true) :
        Many (Statement (exprAt levels) (blockAt levels)) (printedStmts ss) ss := by
      induction h with
      | nil => exact .nil
      | cons hfirst hrest ihrest =>
        rw [areClear, Bool.and_eq_true] at hclear
        exact .cons (statement_printed (fun _ _ => ih) hfirst hclear.1) (ihrest hclear.2)
    cases h with
    | braces id span h => exact .braces id span (hmany h hclear)

/-- What is derived piece by piece is derived as a whole. -/
theorem many_flatMap {α : Type} {item : Language α} {printed : α → List TokenKind} {as : List α}
    (h : ∀ a ∈ as, item (printed a) a) : Many item (as.flatMap printed) as := by
  induction as with
  | nil => exact .nil
  | cons a as ih =>
    exact .cons (h a mem_cons_self) (ih fun a ha => h a (mem_cons_of_mem _ ha))

theorem ctorBodyOf_printed {body : CtorBody} (h : CtorBodyOf ks body)
    (hclear : ∀ b, body = .body b → Block.isClear b = true) : CtorBodyOf body.printed body := by
  cases h with
  | defaulted => exact .defaulted
  | deleted => exact .deleted
  | body h => exact .body (blockAt_printed maxNesting h (hclear _ rfl))

theorem memberOf_printed {name : String} {m : Parser.Member} (h : MemberOf name ks m)
    (hclear : m.isClear = true) : MemberOf name (m.printed name) m := by
  have hparams {ks : List TokenKind} {kind : CtorKind} (h : CtorParams name ks kind) :
      ∃ ks', CtorParams name ks' kind ∧ kind.printed name = .ident name :: inParens ks' := by
    cases h with
    | default => exact ⟨_, .default, rfl⟩
    | copy h => exact ⟨_, .copy (.inr ⟨"other", rfl⟩), rfl⟩
    | move h => exact ⟨_, .move (.inr ⟨"other", rfl⟩), rfl⟩
  cases h with
  | field span fieldName h =>
    obtain rfl := writtenType_printed h hclear
    exact .field span fieldName h
  | ctor span hkind hbody =>
    obtain ⟨ks', hkind', hprinted⟩ := hparams hkind
    have hform := MemberOf.ctor span hkind' (ctorBodyOf_printed hbody fun b hb => by
      subst hb
      exact hclear)
    simpa [Parser.Member.printed, optionalKeyword, hprinted, inParens] using hform
  | explicitCtor span hkind hbody =>
    obtain ⟨ks', hkind', hprinted⟩ := hparams hkind
    have hform := MemberOf.explicitCtor span hkind' (ctorBodyOf_printed hbody fun b hb => by
      subst hb
      exact hclear)
    simpa [Parser.Member.printed, optionalKeyword, hprinted, inParens] using hform
  | destructor span hbody =>
    exact .destructor span (ctorBodyOf_printed hbody fun b hb => by
      subst hb
      exact hclear)

theorem itemOf_printed {i : Parser.Item} (h : ItemOf ks i) (hclear : i.isClear = true) :
    ItemOf i.printed i := by
  cases h with
  | function id span name h => exact .function id span name (blockAt_printed maxNesting h hclear)
  | @classDef id span name ks ks' members hmembers hsemi =>
    have hperm := perm_members (c := ⟨id, span, name, members.filterMap Parser.Member.field?,
      members.filterMap Parser.Member.ctor?⟩) rfl rfl
    have hmany := many_flatMap fun m hm => by
      obtain ⟨ks', -, hm'⟩ := exists_of_mem_many hmembers (hperm.subset hm)
      exact memberOf_printed hm' (all_eq_true.1 hclear m hm)
    have hform := ItemOf.classDef id span name hmany (.inr rfl)
    -- taking the members apart again gives the fields and the special members back
    simpa [ClassDef.members, filterMap_map, Function.comp_def, Parser.Member.field?,
      Parser.Member.ctor?, Parser.Item.printed] using hform

/-- The printed form of a clear program is a form of the program. -/
theorem programOf_printed {p : Program} (h : ProgramOf ks p) (hclear : p.isClear = true) :
    ProgramOf p.printed p := by
  obtain ⟨items, hitems, hfunctions, hclasses⟩ := h
  refine ⟨p.items, many_flatMap fun i hi => ?_, ?_, ?_⟩
  · obtain ⟨ks', -, hi'⟩ := exists_of_mem_many hitems ((perm_items hfunctions hclasses).subset hi)
    exact itemOf_printed hi' (all_eq_true.1 hclear i hi)
  · simp [Program.items, filterMap_map, Function.comp_def, Parser.Item.function?]
  · simp [Program.items, filterMap_map, Function.comp_def, Parser.Item.classDef?]

end Derivation

/- The printed text of a tree is that of its shape. -/
section Shape

variable (number : NodeId → NodeId)

theorem Expr.isBinaryOf_erase (p : Precedence) (e : Expr) :
    (e.erase number).isBinaryOf p = e.isBinaryOf p := by
  cases e <;> rfl

theorem Expr.formatAt_erase (e : Expr) (outer : Precedence) :
    (e.erase number).formatAt outer = e.formatAt outer := by
  induction e generalizing outer with
  | binary id span op opSpan left right ihl ihr =>
    simp [Expr.formatAt, Expr.isBinaryOf_erase, ihl, ihr]
  | field id span base name ih => simp [Expr.formatAt, ih]
  | range id span bound ih => simp [Expr.formatAt, ih]
  | _ => rfl

theorem Expr.format_erase (e : Expr) : (e.erase number).format = e.format :=
  e.formatAt_erase number .lowest

theorem TypeRef.format_erase (t : TypeRef) : t.erase.format = t.format := by
  obtain ⟨span, isConst, base, modifiers⟩ := t
  cases base <;> rfl

theorem Call.format_erase (c : Call) : (c.erase number).format = c.format := by
  simp only [Call.erase, Call.format, Ident.erase, map_map, Function.comp_def,
    Expr.format_erase]

theorem CleanupAction.format_erase (action : CleanupAction) :
    (action.erase number).format = action.format := by
  cases action with
  | deferred call => simp only [CleanupAction.erase, CleanupAction.format, Call.format_erase]
  | _ => rfl

mutual

theorem Stmt.format_erase (level : Nat) : ∀ s : Stmt,
    (s.erase number).format level = s.format level
  | .varDecl ⟨id, span, type, name, none⟩ => by
    simp only [Stmt.erase, VarDecl.erase, Stmt.format, TypeRef.format_erase, Option.map_none,
      Ident.erase]
  | .varDecl ⟨id, span, type, name, some e⟩ => by
    simp only [Stmt.erase, VarDecl.erase, Stmt.format, TypeRef.format_erase, Option.map_some,
      Ident.erase, Expr.format_erase]
  | .assign _ _ _ => by simp only [Stmt.erase, Stmt.format, Expr.format_erase]
  | .call _ _ => by simp only [Stmt.erase, Stmt.format, Call.format_erase]
  | .block body => by simp only [Stmt.erase, Stmt.format, Block.format_erase level body]
  | .ifElse _ _ thenBody none => by
    simp only [Stmt.erase, Stmt.format, Expr.format_erase, Block.format_erase level thenBody]
  | .ifElse _ _ thenBody (some elseBody) => by
    simp only [Stmt.erase, Stmt.format, Expr.format_erase, Block.format_erase level thenBody,
      Block.format_erase level elseBody]
  | .whileLoop _ _ body => by
    simp only [Stmt.erase, Stmt.format, Expr.format_erase, Block.format_erase level body]
  | .forIn _ _ _ _ body => by
    simp only [Stmt.erase, Stmt.format, Expr.format_erase, Ident.erase,
      Block.format_erase level body]
  | .ret _ none => rfl
  | .ret _ (some _) => by simp only [Stmt.erase, Option.map_some, Stmt.format, Expr.format_erase]
  | .defer _ _ => by simp only [Stmt.erase, Stmt.format, Call.format_erase]
  | .cleanup _ => by
    simp only [Stmt.erase, Cleanup.erase, Stmt.format, Ident.erase, CleanupAction.format_erase]

theorem Block.format_erase (level : Nat) : ∀ b : BlockOf Stmt,
    Block.format level (eraseBlock number b) = Block.format level b
  | ⟨_, _, stmts⟩ => by
    simp only [eraseBlock, Block.format, formatStmts_erase (level + 1) stmts]

theorem formatStmts_erase (level : Nat) : ∀ ss : List Stmt,
    formatStmts level (eraseStmts number ss) = formatStmts level ss
  | [] => rfl
  | s :: ss => by
    simp only [eraseStmts, formatStmts, Stmt.format_erase level s, formatStmts_erase level ss]

end

theorem FieldDef.format_erase (f : FieldDef) : f.erase.format = f.format := by
  simp only [FieldDef.erase, FieldDef.format, TypeRef.format_erase, Ident.erase]

theorem CtorDecl.format_erase (name : String) (c : CtorDecl) :
    (c.erase number).format name = c.format name := by
  have hbody : (c.body.erase number).format = c.body.format := by
    cases c.body with
    | body block => simp only [CtorBody.erase, CtorBody.format, Block.format_erase]
    | _ => rfl
  exact congrArg (indentation 1 ++ _ ++ c.kind.format name ++ ·) hbody

theorem ClassDef.format_erase (c : ClassDef) : (c.erase number).format = c.format := by
  simp only [ClassDef.erase, ClassDef.format, Ident.erase, map_map, Function.comp_def,
    FieldDef.format_erase, CtorDecl.format_erase]

theorem Function.format_erase (f : Function) : (f.erase number).format = f.format := by
  simp only [Function.erase, Function.format, Ident.erase, Block.format_erase]

/-- Programs are printed by their shape. -/
theorem Program.format_erase (p : Program) : (p.erase number).format = p.format := by
  simp only [Program.erase, Program.format, map_map, Function.comp_def, ClassDef.format_erase,
    Function.format_erase]

end Shape

/-- The end of the stream is no token of a text. -/
theorem eof_notMem_kindsOf (text : List Char) : .eof ∉ kindsOf text := by
  intro hmem
  obtain ⟨p, hp, hkind⟩ := mem_filterMap.1 hmem
  obtain ⟨c, cs, rfl⟩ := exists_first_of_mem_pieces hp
  have hcls := Piece.cls_ne_eof (Piece.explained_first c cs) (Piece.exists_rest_first c cs).1
  unfold Piece.tokenKind? at hkind
  split at hkind
  · rename_i kind hkind'
    exact hcls (by rw [hkind', Option.some.inj hkind])
  · simp at hkind
  · contradiction

theorem programKinds_tokens (text : List Char) : programKinds (tokens text) = kindsOf text := by
  unfold programKinds
  rw [map_kind_tokens, takeWhile_append_of_pos]
  · simp
  · intro k hk
    have hne : k ≠ .eof := fun h => eof_notMem_kindsOf text (h ▸ hk)
    exact decide_eq_true hne

/-- A program that was read without an error is scanned back into its printed tokens. -/
theorem programKinds_format (text : List Char) (hparse : (parseProgram (tokens text)).2 = []) :
    let p := (parseProgram (tokens text)).1
    programKinds (tokens p.format.toList) = p.printed ∧ scanErrors p.format.toList = [] := by
  intro p
  have hderives := derives_parseProgram (tokens text) hparse
  rw [programKinds_tokens] at hderives
  have hspells : Spells p.format.toList p.printed :=
    spells_program (fun k hk => written_of_mem_kindsOf hk) hderives
  obtain ⟨hkinds, hscan⟩ := hspells.tokens
  rw [map_kind_tokens] at hkinds
  refine ⟨?_, hscan⟩
  rw [programKinds_tokens, append_cancel_right hkinds]

/-- A clear program that was read without an error is printed as a text that is read without an
error, as a program of the same shape, and so is printed as the same text again. -/
theorem format_stable_of_isClear (text : List Char) (hparse : (parseProgram (tokens text)).2 = [])
    (hclear : (parseProgram (tokens text)).1.isClear = true) :
    let p := (parseProgram (tokens text)).1
    let p' := (parseProgram (tokens p.format.toList)).1
    (parseProgram (tokens p.format.toList)).2 = [] ∧ p'.shape = p.shape ∧
      p'.format = p.format := by
  intro p p'
  have hderives : ProgramOf (programKinds (tokens p.format.toList)) p := by
    rw [(programKinds_format text hparse).1]
    exact programOf_printed (derives_parseProgram (tokens text) hparse) hclear
  obtain ⟨herrors, hshape⟩ := parseProgram_of_derives hderives
  refine ⟨herrors, hshape, ?_⟩
  calc p'.format = p'.shape.format := (p'.format_erase unnumbered).symm
    _ = p.shape.format := by rw [hshape]
    _ = p.format := p.format_erase unnumbered

end DeferLang
