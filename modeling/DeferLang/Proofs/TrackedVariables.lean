import DeferLang.Proofs.Point

/-!
# Which variables the orders of a scope hold

Behind a statement the orders of its scope hold the same variables as in front of
it, in some order, and those that the statement declares.  They are still the
orders of the same scope.  `ScopeCleanup.Extends` says this of the orders in front
of and behind a piece of program; nothing is asked of the tables.
-/

namespace DeferLang

/-- The symbols of variables, of those that have one. -/
def Context.symbolsOf (ctx : Context) (xs : List LocalVar) : List SymbolId :=
  xs.filterMap fun x => ctx.declSymbol? x.decl

theorem Context.symbolsOf_append (ctx : Context) (xs ys : List LocalVar) :
    ctx.symbolsOf (xs ++ ys) = ctx.symbolsOf xs ++ ctx.symbolsOf ys :=
  List.filterMap_append

/-- Bringing a variable to the front keeps all variables. -/
theorem mem_bumpToFront {v var : SymbolId} {order : List SymbolId} :
    v ∈ bumpToFront var order ↔ v ∈ order := by
  unfold bumpToFront
  split
  · rename_i hmem
    by_cases hv : v = var
    · subst hv
      simpa using hmem
    · rw [List.mem_cons, List.mem_erase_of_ne hv, or_iff_right hv]
  · rfl

namespace ScopeCleanup

/-- From `t` to `t'`, orders of one scope, exactly `vars` were declared. -/
structure Extends (t t' : ScopeCleanup) (vars : List SymbolId) : Prop where
  block_eq : t'.block = t.block
  span_eq : t'.span = t.span
  kind_eq : t'.kind = t.kind
  locals_eq : t'.locals = t.locals ++ vars
  mem_returnOrder : ∀ v, v ∈ t'.returnOrder ↔ v ∈ t.returnOrder ∨ v ∈ vars

namespace Extends

variable {t t' t'' : ScopeCleanup} {vars vars' : List SymbolId}

theorem refl (t : ScopeCleanup) : t.Extends t [] :=
  ⟨rfl, rfl, rfl, (List.append_nil _).symm, by simp⟩

theorem trans (h : t.Extends t' vars) (h' : t'.Extends t'' vars') :
    t.Extends t'' (vars ++ vars') where
  block_eq := h'.block_eq.trans h.block_eq
  span_eq := h'.span_eq.trans h.span_eq
  kind_eq := h'.kind_eq.trans h.kind_eq
  locals_eq := by rw [h'.locals_eq, h.locals_eq, List.append_assoc]
  mem_returnOrder v := by
    rw [h'.mem_returnOrder, h.mem_returnOrder, List.mem_append, or_assoc]

theorem declare (t : ScopeCleanup) (var : SymbolId) : t.Extends (t.declare var) [var] :=
  ⟨rfl, rfl, rfl, rfl, fun _ => List.mem_append⟩

theorem noteReturn (h : t.Extends t' vars) (inner : ScopeCleanup) :
    t.Extends (t'.noteReturn inner) vars :=
  ⟨h.block_eq, h.span_eq, h.kind_eq, h.locals_eq, h.mem_returnOrder⟩

theorem apply (t : ScopeCleanup) (e : DeferEffect) : t.Extends (t.apply e) [] := by
  refine ⟨rfl, rfl, rfl, (List.append_nil _).symm, fun v => ?_⟩
  rw [or_iff_left List.not_mem_nil]
  exact mem_bumpToFront

theorem inherit (h : t.Extends t' vars) (e : DeferEffect) : t.Extends (t'.inherit e) vars := by
  unfold ScopeCleanup.inherit
  split
  · exact h
  · exact ⟨h.block_eq, h.span_eq, h.kind_eq, h.locals_eq, h.mem_returnOrder⟩

/-- Effects only reorder, if every step of applying them does. -/
theorem foldl {step : ScopeCleanup → DeferEffect → ScopeCleanup}
    (hstep : ∀ (t : ScopeCleanup) e, t.Extends (step t e) []) (t : ScopeCleanup)
    (es : List DeferEffect) : t.Extends (es.foldl step t) [] := by
  induction es generalizing t with
  | nil => exact refl t
  | cons e es ih => exact (hstep t e).trans (ih (step t e))

theorem applyAll (t : ScopeCleanup) (es : List DeferEffect) : t.Extends (t.applyAll es) [] :=
  foldl (fun t e => (apply t e).inherit e) t es

theorem replay (t : ScopeCleanup) (es : List DeferEffect) : t.Extends (t.replay es) [] := by
  refine foldl (fun t e => ?_) t es
  split
  · exact apply t e
  · exact (apply t e).inherit e

end Extends

end ScopeCleanup

section Plan

variable (ctx : Context) (t : ScopeCleanup) (returnFollows : Bool)

/-- A `defer` declares nothing. -/
theorem extends_planDefer (call : Call) :
    t.Extends (Cleanup.planDefer ctx t call returnFollows).1 [] := by
  unfold Cleanup.planDefer
  dsimp only
  split
  · exact .refl t
  · split
    · exact .applyAll t _
    · exact .refl t

/-- Behind a statement the orders hold what it declares in its scope in addition. -/
theorem extends_planStmt (s : Stmt) :
    t.Extends (Cleanup.planStmt ctx t returnFollows s).orders
      (ctx.symbolsOf s.declared?.toList) := by
  cases s with
  | varDecl d =>
    have hsymbols : ctx.symbolsOf [d.toLocal] = (ctx.declSymbol? d.id).toList := by
      rw [Context.symbolsOf, List.filterMap_cons, List.filterMap_nil,
        show d.toLocal.decl = d.id from rfl]
      cases ctx.declSymbol? d.id <;> rfl
    change t.Extends _ (ctx.symbolsOf [d.toLocal])
    rw [hsymbols, Cleanup.planStmt]
    cases ctx.declSymbol? d.id with
    | none => exact .refl t
    | some var => exact .declare t var
  | defer span call => exact extends_planDefer ctx t returnFollows call
  | ret span value =>
    have hstay := ScopeCleanup.Extends.refl t
    exact ⟨rfl, rfl, rfl, hstay.locals_eq, hstay.mem_returnOrder⟩
  | block body => exact (ScopeCleanup.Extends.replay t _).noteReturn _
  | ifElse span cond thenBody elseBody =>
    cases elseBody with
    | none => exact (ScopeCleanup.Extends.refl t).noteReturn _
    | some elseBody => exact ((ScopeCleanup.Extends.refl t).noteReturn _).noteReturn _
  | whileLoop span cond body | forIn id span var iter body =>
    exact (ScopeCleanup.Extends.refl t).noteReturn _
  | assign span target value | call span call | cleanup item => exact .refl t

end Plan

end DeferLang
