import DeferLang.Proofs.Point

/-!
# Programs without their cleanup

The bare form of a program is what is left when its cleanup statements are
taken out.  Planning only puts cleanup in: a planned body has the bare form of
the body it was made from.  What does not look at cleanup, such as the list of
declared variables, is therefore the same before and after planning.
-/

namespace DeferLang

open List
open Cleanup hiding span

mutual

/-- What is left of a statement when all cleanup is taken out of it. -/
def Stmt.bare : Stmt → List Stmt
  | .varDecl d => [.varDecl d]
  | .assign span target value => [.assign span target value]
  | .call span call => [.call span call]
  | .block body => [.block (bareBlock body)]
  | .ifElse span cond thenBody none => [.ifElse span cond (bareBlock thenBody) none]
  | .ifElse span cond thenBody (some elseBody) =>
    [.ifElse span cond (bareBlock thenBody) (some (bareBlock elseBody))]
  | .whileLoop span cond body => [.whileLoop span cond (bareBlock body)]
  | .forIn id span var iter body => [.forIn id span var iter (bareBlock body)]
  | .ret span value => [.ret span value]
  | .defer span call => [.defer span call]
  | .cleanup _ => []

/-- A block without its cleanup. -/
def bareBlock : BlockOf Stmt → BlockOf Stmt
  | ⟨id, span, stmts⟩ => ⟨id, span, bareStmts stmts⟩

/-- Statements without their cleanup. -/
def bareStmts : List Stmt → List Stmt
  | [] => []
  | s :: ss => s.bare ++ bareStmts ss

end

theorem bareStmts_append (xs ys : List Stmt) :
    bareStmts (xs ++ ys) = bareStmts xs ++ bareStmts ys := by
  induction xs with
  | nil => rfl
  | cons s ss ih => rw [cons_append, bareStmts, ih, bareStmts, append_assoc]

theorem bareStmts_cleanup (items : List Cleanup) : bareStmts (items.map .cleanup) = [] := by
  induction items with
  | nil => rfl
  | cons item items ih =>
    rw [map_cons, bareStmts, ih]
    rfl

section PassesCleanup

/-- Statements that differ at most in what stands in their blocks. -/
inductive Stmt.Alike (E : List Stmt → List Stmt → Prop) : Stmt → Stmt → Prop
  | refl (s : Stmt) : Alike E s s
  | block {id : NodeId} {span : Span} {ss ss' : List Stmt} :
      E ss ss' → Alike E (.block ⟨id, span, ss⟩) (.block ⟨id, span, ss'⟩)
  | ifThen {span : Span} {cond : Expr} {id : NodeId} {inner : Span} {ss ss' : List Stmt} :
      E ss ss' →
      Alike E (.ifElse span cond ⟨id, inner, ss⟩ none) (.ifElse span cond ⟨id, inner, ss'⟩ none)
  | ifElse {span : Span} {cond : Expr} {id id' : NodeId} {inner inner' : Span}
      {ss ss' ts ts' : List Stmt} : E ss ss' → E ts ts' →
      Alike E (.ifElse span cond ⟨id, inner, ss⟩ (some ⟨id', inner', ts⟩))
        (.ifElse span cond ⟨id, inner, ss'⟩ (some ⟨id', inner', ts'⟩))
  | whileLoop {span : Span} {cond : Expr} {id : NodeId} {inner : Span} {ss ss' : List Stmt} :
      E ss ss' →
      Alike E (.whileLoop span cond ⟨id, inner, ss⟩) (.whileLoop span cond ⟨id, inner, ss'⟩)
  | forIn {decl : NodeId} {span : Span} {var : Ident} {iter : Expr} {id : NodeId} {inner : Span}
      {ss ss' : List Stmt} : E ss ss' →
      Alike E (.forIn decl span var iter ⟨id, inner, ss⟩)
        (.forIn decl span var iter ⟨id, inner, ss'⟩)

/-- A relation between statements that does not look at cleanup. -/
structure PassesCleanup (E : List Stmt → List Stmt → Prop) : Prop where
  nil : E [] []
  cons : ∀ {s s' ss ss'}, s.Alike E s' → E ss ss' → E (s :: ss) (s' :: ss')
  cleanup : ∀ item {ss ss'}, E ss ss' → E ss (.cleanup item :: ss')

variable {E : List Stmt → List Stmt → Prop}

mutual

/-- In front of statements, a statement is like its bare form. -/
theorem PassesCleanup.bare_append (h : PassesCleanup E) (s : Stmt) {ss ss' : List Stmt}
    (hss : E ss ss') : E (s.bare ++ ss) (s :: ss') := by
  match s with
  | .varDecl _ => exact h.cons (.refl _) hss
  | .assign _ _ _ => exact h.cons (.refl _) hss
  | .call _ _ => exact h.cons (.refl _) hss
  | .ret _ _ => exact h.cons (.refl _) hss
  | .defer _ _ => exact h.cons (.refl _) hss
  | .cleanup item => exact h.cleanup item hss
  | .block ⟨_, _, body⟩ => exact h.cons (.block (h.stmts body)) hss
  | .ifElse _ _ ⟨_, _, body⟩ none => exact h.cons (.ifThen (h.stmts body)) hss
  | .ifElse _ _ ⟨_, _, body⟩ (some ⟨_, _, other⟩) =>
    exact h.cons (.ifElse (h.stmts body) (h.stmts other)) hss
  | .whileLoop _ _ ⟨_, _, body⟩ => exact h.cons (.whileLoop (h.stmts body)) hss
  | .forIn _ _ _ _ ⟨_, _, body⟩ => exact h.cons (.forIn (h.stmts body)) hss

/-- What does not look at cleanup is the same without it. -/
theorem PassesCleanup.stmts (h : PassesCleanup E) (ss : List Stmt) : E (bareStmts ss) ss := by
  match ss with
  | [] => exact h.nil
  | s :: ss => exact h.bare_append s (h.stmts ss)

end

end PassesCleanup

section Plan

variable (ctx : Context)

theorem bareBlock_planEnd (id : NodeId) (span : Span) (body : Cleanup.Planned (List Stmt)) :
    bareBlock (planEnd ctx id span body).value = ⟨id, span, bareStmts body.value⟩ := by
  unfold planEnd
  split
  · rfl
  · rw [bareBlock, bareStmts_append, bareStmts_cleanup, append_nil]

mutual

/-- A planned statement is the statement with cleanup put in. -/
theorem bareStmts_planStmt (t : ScopeCleanup) (returnFollows : Bool) (s : Stmt) :
    bareStmts (planStmt ctx t returnFollows s).value = s.bare := by
  match s with
  | .varDecl _ | .assign _ _ _ | .call _ _ | .defer _ _ | .cleanup _ => rfl
  | .ret _ _ =>
    rw [planStmt, planReturn, bareStmts_append, bareStmts_cleanup]
    rfl
  | .block body =>
    rw [planStmt, bareStmts, Stmt.bare, bareBlock_planBlock _ _ _ body]
    rfl
  | .ifElse _ _ thenBody none =>
    rw [planStmt, bareStmts, Stmt.bare, bareBlock_planBlock _ _ _ thenBody]
    rfl
  | .ifElse _ _ thenBody (some elseBody) =>
    rw [planStmt, bareStmts, Stmt.bare, bareBlock_planBlock _ _ _ thenBody,
      bareBlock_planBlock _ _ _ elseBody]
    rfl
  | .whileLoop _ _ body | .forIn _ _ _ _ body =>
    rw [planStmt, bareStmts, Stmt.bare, bareBlock_planBlock _ _ _ body]
    rfl

theorem bareBlock_planBlock (outer : Option ScopeCleanup) (kind : ScopeKind)
    (loopVar : Option SymbolId) (b : BlockOf Stmt) :
    bareBlock (planBlock ctx outer kind loopVar b).value = bareBlock b := by
  match b with
  | ⟨id, span, stmts⟩ =>
    rw [planBlock, bareBlock_planEnd, bareStmts_planStmts _ stmts, bareBlock]

theorem bareStmts_planStmts (t : ScopeCleanup) (ss : List Stmt) :
    bareStmts (planStmts ctx t ss).value = bareStmts ss := by
  match ss with
  | [] => rfl
  | s :: ss =>
    rw [planStmts, bareStmts_append, bareStmts_planStmt _ _ s, bareStmts_planStmts _ ss, bareStmts]

end

/-- A planned body is the body with cleanup put in. -/
theorem bareBlock_planBody (body : Block) :
    bareBlock (planBody ctx body).value = bareBlock body :=
  bareBlock_planBlock ctx none .body none body

end Plan

section Decls

/-- Cleanup declares nothing. -/
theorem passesCleanup_decls :
    PassesCleanup fun ss ss' => declsOfStmts ss = declsOfStmts ss' where
  nil := rfl
  cons h hss := by cases h <;> simp only [declsOfStmts, Stmt.decls, declsOfBlock, *]
  cleanup _ _ _ h := h

theorem declsOfBlock_bareBlock (loopVar : Option LocalVar) (b : BlockOf Stmt) :
    declsOfBlock loopVar (bareBlock b) = declsOfBlock loopVar b := by
  obtain ⟨_, _, stmts⟩ := b
  rw [bareBlock, declsOfBlock, passesCleanup_decls.stmts stmts, declsOfBlock]

/-- Planning keeps the declarations of a statement. -/
theorem decls_planStmt (ctx : Context) (t : ScopeCleanup) (returnFollows : Bool) (s : Stmt) :
    declsOfStmts (planStmt ctx t returnFollows s).value = s.decls := by
  have hbare := passesCleanup_decls.bare_append s passesCleanup_decls.nil
  rw [← passesCleanup_decls.stmts, bareStmts_planStmt, ← append_nil s.bare, hbare]
  exact append_nil _

end Decls

section Bodies

variable (ctx : Context)

/-- Planning a special member plans its body. -/
theorem block_planCtor (name : String) (c : CtorDecl) :
    (planCtor ctx name c).1.block? =
      c.block?.map fun body => (planBody ctx body).value := by
  obtain ⟨span, kind, isExplicit, body⟩ := c
  cases body with
  | defaulted | deleted | body block => rfl

theorem blocks_planClass (c : ClassDef) :
    (planClass ctx c).1.ctors.filterMap CtorDecl.block? =
      (c.ctors.filterMap CtorDecl.block?).map fun body => (planBody ctx body).value := by
  rw [planClass, map_map, filterMap_map, map_filterMap]
  congr 1
  funext ctor
  exact block_planCtor ctx c.name.name ctor

/-- Scheduling plans the bodies of a program one by one. -/
theorem bodies_planCleanup (p : Program) :
    (p.planCleanup ctx).1.program.bodies =
      p.bodies.map fun body => (planBody ctx body).value := by
  have hctors : (p.planCleanup ctx).1.program.ctorBlocks =
      p.ctorBlocks.map fun body => (planBody ctx body).value := by
    change ((p.classes.map (planClass ctx)).map (·.1)).flatMap _ = _
    rw [map_map, flatMap_map, Program.ctorBlocks, map_flatMap]
    congr 1
    funext c
    exact blocks_planClass ctx c
  have hfunctions : (p.planCleanup ctx).1.program.functions.map Function.body =
      (p.functions.map Function.body).map fun body => (planBody ctx body).value := by
    change ((p.functions.map (planFunction ctx)).map (·.1)).map _ = _
    rw [map_map, map_map, map_map]
    rfl
  rw [Program.bodies, hctors, hfunctions, ← map_append, Program.bodies]

theorem errors_planEnd (id : NodeId) (span : Span) (body : Cleanup.Planned (List Stmt)) :
    (planEnd ctx id span body).errors = body.errors := by
  unfold planEnd
  split <;> rfl

theorem errors_planCtor (name : String) (c : CtorDecl) :
    (planCtor ctx name c).2.2 =
      c.block?.toList.flatMap fun body => (planBody ctx body).errors := by
  obtain ⟨span, kind, isExplicit, body⟩ := c
  cases body with
  | defaulted | deleted => rfl
  | body block => exact (append_nil _).symm

theorem errors_planClass (c : ClassDef) :
    (planClass ctx c).2.2 =
      (c.ctors.filterMap CtorDecl.block?).flatMap fun body =>
        (planBody ctx body).errors := by
  change (c.ctors.map (planCtor ctx c.name.name)).flatMap (·.2.2) = _
  rw [flatMap_map]
  induction c.ctors with
  | nil => rfl
  | cons ctor ctors ih =>
    rw [flatMap_cons, ih, errors_planCtor, filterMap_cons]
    cases ctor.block? <;> simp

/-- The errors of a program are those of its bodies, in order. -/
theorem errors_planCleanup (p : Program) :
    (p.planCleanup ctx).2 = p.bodies.flatMap fun body => (planBody ctx body).errors := by
  have hctors : (p.classes.map (planClass ctx)).flatMap (·.2.2) =
      p.ctorBlocks.flatMap fun body => (planBody ctx body).errors := by
    rw [flatMap_map, Program.ctorBlocks, flatMap_assoc]
    congr 1
    funext c
    exact errors_planClass ctx c
  have hfunctions : (p.functions.map (planFunction ctx)).flatMap (·.2.2) =
      (p.functions.map Function.body).flatMap fun body => (planBody ctx body).errors := by
    rw [flatMap_map, flatMap_map]
    rfl
  rw [Program.bodies, flatMap_append, ← hctors, ← hfunctions]
  rfl

/-- Every error in a body is an error of the program. -/
theorem errors_planBody_subset {p : Program} {body : Block} (hbody : body ∈ p.bodies) :
    ∀ e ∈ (planBody ctx body).errors, e ∈ (p.planCleanup ctx).2 := by
  intro e he
  rw [errors_planCleanup]
  exact mem_flatMap.2 ⟨body, hbody, he⟩

/-- Scheduling gives a result exactly if nothing blocks and the tables cover the program. -/
theorem scheduleCleanup_eq_some_iff {p : Program} {sofar : Diagnostics}
    {result : ScheduledProgram} {errors : List CleanupError} :
    p.scheduleCleanup ctx sofar = (some result, errors) ↔
      sofar.hasBlocking = false ∧ ctx.covers p = true ∧ p.planCleanup ctx = (result, errors) := by
  unfold Program.scheduleCleanup
  cases sofar.hasBlocking with
  | true => simp
  | false =>
    cases ctx.covers p with
    | true =>
      obtain ⟨planned, faults⟩ := p.planCleanup ctx
      simp
    | false => simp

end Bodies

end DeferLang
