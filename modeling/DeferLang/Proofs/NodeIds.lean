import DeferLang.Proofs.Bare
import Mathlib.Data.List.Basic

/-!
# The node numbers of a program

The numbers of a piece of program stand in the list in which the parser gives
them out: an operation comes behind its operands, everything else in front of
what is in it.  Cleanup statements have no numbers of their own.
-/

namespace DeferLang

open List

/-- The numbers in an expression. -/
def Expr.ids : Expr → List NodeId
  | .bool id _ _ => [id]
  | .int id _ _ => [id]
  | .str id _ _ => [id]
  | .var id _ => [id]
  | .binary id _ _ _ left right => left.ids ++ right.ids ++ [id]
  | .field id _ base _ => base.ids ++ [id]
  | .range id _ bound => bound.ids ++ [id]

/-- The numbers in a call. -/
def Call.ids (c : Call) : List NodeId :=
  c.id :: c.args.flatMap Expr.ids

/-- The numbers in an expression that may be missing. -/
def Expr.idsOf? (e : Option Expr) : List NodeId :=
  e.toList.flatMap Expr.ids

/-- The numbers in a declaration. -/
def VarDecl.ids (d : VarDecl) : List NodeId :=
  d.id :: Expr.idsOf? d.init

mutual

/-- The numbers in a statement. -/
def Stmt.ids : Stmt → List NodeId
  | .varDecl d => d.ids
  | .assign _ target value => target.ids ++ value.ids
  | .call _ call => call.ids
  | .block body => idsOfBlock body
  | .ifElse _ cond thenBody none => cond.ids ++ idsOfBlock thenBody
  | .ifElse _ cond thenBody (some elseBody) =>
    cond.ids ++ (idsOfBlock thenBody ++ idsOfBlock elseBody)
  | .whileLoop _ cond body => cond.ids ++ idsOfBlock body
  | .forIn id _ _ iter body => id :: (iter.ids ++ idsOfBlock body)
  | .ret _ value => Expr.idsOf? value
  | .defer _ call => call.ids
  | .cleanup _ => []

/-- The numbers in a block, its own first. -/
def idsOfBlock : BlockOf Stmt → List NodeId
  | ⟨id, _, stmts⟩ => id :: idsOfStmts stmts

/-- The numbers in statements. -/
def idsOfStmts : List Stmt → List NodeId
  | [] => []
  | s :: ss => s.ids ++ idsOfStmts ss

end

/-- The numbers in a special member. -/
def CtorDecl.ids (c : CtorDecl) : List NodeId :=
  c.block?.toList.flatMap idsOfBlock

/-- The numbers in a class. -/
def ClassDef.ids (c : ClassDef) : List NodeId :=
  c.id :: c.ctors.flatMap CtorDecl.ids

/-- The numbers in a function. -/
def Function.ids (f : Function) : List NodeId :=
  f.id :: idsOfBlock f.body

/-- The numbers in a program. -/
def Program.ids (p : Program) : List NodeId :=
  p.classes.flatMap ClassDef.ids ++ p.functions.flatMap Function.ids

theorem idsOfStmts_append (xs ys : List Stmt) :
    idsOfStmts (xs ++ ys) = idsOfStmts xs ++ idsOfStmts ys := by
  induction xs with
  | nil => rfl
  | cons s ss ih => rw [cons_append, idsOfStmts, ih, idsOfStmts, append_assoc]

theorem idsOfStmts_eq_flatMap (stmts : List Stmt) : idsOfStmts stmts = stmts.flatMap Stmt.ids := by
  induction stmts with
  | nil => rfl
  | cons s ss ih => rw [idsOfStmts, ih, flatMap_cons]

/-- The bodies of a program hold part of its numbers. -/
theorem ids_bodies_sublist (p : Program) : (p.bodies.flatMap idsOfBlock).Sublist p.ids := by
  have hctors : (p.ctorBlocks.flatMap idsOfBlock).Sublist (p.classes.flatMap ClassDef.ids) := by
    rw [Program.ctorBlocks]
    induction p.classes with
    | nil => exact List.Sublist.refl _
    | cons c cs ih =>
      have hclass : (c.ctors.filterMap CtorDecl.block?).flatMap idsOfBlock =
          c.ctors.flatMap CtorDecl.ids := by
        rw [filterMap_eq_flatMap_toList, flatMap_assoc]
        rfl
      rw [flatMap_cons, flatMap_append, hclass, flatMap_cons, ClassDef.ids]
      exact (sublist_cons_self _ _).append ih
  have hfunctions : ((p.functions.map Function.body).flatMap idsOfBlock).Sublist
      (p.functions.flatMap Function.ids) := by
    induction p.functions with
    | nil => exact List.Sublist.refl _
    | cons f fs ih =>
      rw [map_cons, flatMap_cons, flatMap_cons, Function.ids]
      exact (sublist_cons_self _ _).append ih
  rw [Program.bodies, flatMap_append, Program.ids]
  exact hctors.append hfunctions

section Bare

/-- Cleanup has no numbers. -/
theorem passesCleanup_ids : PassesCleanup fun ss ss' => idsOfStmts ss = idsOfStmts ss' where
  nil := rfl
  cons h hss := by cases h <;> simp only [idsOfStmts, Stmt.ids, idsOfBlock, *]
  cleanup _ _ _ h := h

theorem idsOfBlock_bareBlock (b : BlockOf Stmt) : idsOfBlock (bareBlock b) = idsOfBlock b := by
  obtain ⟨_, _, stmts⟩ := b
  rw [bareBlock, idsOfBlock, passesCleanup_ids.stmts stmts, idsOfBlock]

/-- Planning keeps the numbers of a body. -/
theorem idsOfBlock_planBody (ctx : Context) (body : Block) :
    idsOfBlock (Cleanup.planBody ctx body).value = idsOfBlock body := by
  rw [← idsOfBlock_bareBlock, bareBlock_planBody, idsOfBlock_bareBlock]

end Bare

section Decls

mutual

/-- Every variable has the number of a node. -/
theorem decls_sublist_ids (s : Stmt) : (s.decls.map LocalVar.decl).Sublist s.ids := by
  match s with
  | .varDecl d => exact singleton_sublist.2 mem_cons_self
  | .assign _ _ _ => exact nil_sublist _
  | .call _ _ => exact nil_sublist _
  | .ret _ _ => exact nil_sublist _
  | .defer _ _ => exact nil_sublist _
  | .cleanup _ => exact nil_sublist _
  | .block body => exact declsOfBlock_sublist_ids body
  | .ifElse _ cond thenBody none =>
    exact (declsOfBlock_sublist_ids thenBody).trans (sublist_append_right _ _)
  | .ifElse _ cond thenBody (some elseBody) =>
    rw [Stmt.decls, Stmt.ids, map_append]
    exact ((declsOfBlock_sublist_ids thenBody).append (declsOfBlock_sublist_ids elseBody)).trans
      (sublist_append_right _ _)
  | .whileLoop _ cond body =>
    exact (declsOfBlock_sublist_ids body).trans (sublist_append_right _ _)
  | .forIn id _ var iter body =>
    rw [Stmt.ids, Stmt.decls, declsOfBlock_some, map_cons]
    exact ((declsOfBlock_sublist_ids body).trans (sublist_append_right _ _)).cons_cons id

theorem declsOfBlock_sublist_ids (b : BlockOf Stmt) :
    ((declsOfBlock none b).map LocalVar.decl).Sublist (idsOfBlock b) := by
  match b with
  | ⟨_, _, stmts⟩ => exact (declsOfStmts_sublist_ids stmts).cons _

theorem declsOfStmts_sublist_ids (ss : List Stmt) :
    ((declsOfStmts ss).map LocalVar.decl).Sublist (idsOfStmts ss) := by
  match ss with
  | [] => exact List.Sublist.refl _
  | s :: ss =>
    rw [declsOfStmts, map_append, idsOfStmts]
    exact (decls_sublist_ids s).append (declsOfStmts_sublist_ids ss)

end

end Decls

end DeferLang
