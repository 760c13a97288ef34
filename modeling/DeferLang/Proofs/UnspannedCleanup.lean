import DeferLang.Cleanup.Schedule
import DeferLang.Proofs.UnspannedChecking
import Mathlib.Data.List.Induction

/-!
# Cleanup does not look at spans

Planning the cleanup of a program without its spans keeps the same orders, plans
the same statements up to their spans, and finds the same faults
(`Program.planCleanup_unspanned`).  The cleanup at the end of a block stands at the
brace that closes it, which is not blank even for a block without span: planned
statements are therefore compared after their spans are taken out once more.
-/

namespace DeferLang

open List

section Twice

variable (number number' : NodeId → NodeId)

@[simp] theorem Expr.erase_erase (e : Expr) :
    (e.erase number).erase number' = e.erase fun id => number' (number id) := by
  induction e with
  | binary id span op opSpan left right ihl ihr => simp only [Expr.erase, ihl, ihr]
  | field id span base name ih => simp only [Expr.erase, Ident.erase, ih]
  | range id span bound ih => simp only [Expr.erase, ih]
  | _ => rfl

@[simp] theorem TypeName.erase_erase (base : TypeName) : base.erase.erase = base.erase := by
  cases base <;> rfl

theorem VarDecl.erase_erase (d : VarDecl) :
    (d.erase number).erase number' = d.erase fun id => number' (number id) := by
  simp only [VarDecl.erase, TypeRef.erase, TypeName.erase_erase, Ident.erase, Option.map_map,
    Function.comp_def, Expr.erase_erase]

theorem Call.erase_erase (c : Call) :
    (c.erase number).erase number' = c.erase fun id => number' (number id) := by
  simp [Function.comp_def]

theorem CleanupAction.erase_erase (a : CleanupAction) :
    (a.erase number).erase number' = a.erase fun id => number' (number id) := by
  cases a with
  | deferred call => exact congrArg CleanupAction.deferred (call.erase_erase number number')
  | _ => rfl

theorem FieldDef.erase_erase (f : FieldDef) : f.erase.erase = f.erase := by
  simp only [FieldDef.erase, TypeRef.erase, TypeName.erase_erase, Ident.erase]

end Twice

/-- Looking up in a table whose entries are changed. -/
theorem lookup_mapSnd {α β γ : Type} [BEq α] (f : β → γ) (l : List (α × β)) (a : α) :
    (l.map fun p => (p.1, f p.2)).lookup a = (l.lookup a).map f := by
  induction l with
  | nil => rfl
  | cons p l ih =>
    rw [map_cons, lookup_cons, lookup_cons, ih]
    cases a == p.1 <;> rfl

section Unspanned

abbrev CleanupAction.unspanned (a : CleanupAction) : CleanupAction :=
  a.erase fun id => id

abbrev Cleanup.unspanned (item : Cleanup) : Cleanup :=
  item.erase fun id => id

def DeferEffect.unspanned (e : DeferEffect) : DeferEffect :=
  ⟨e.var, .blank, e.action.unspanned⟩

/-- The orders of a scope without the places of the scope and of its effects. -/
def ScopeCleanup.unspanned (t : ScopeCleanup) : ScopeCleanup :=
  { t with
    span := .blank
    registered := t.registered.map fun r => (r.1, r.2.unspanned)
    inherited := t.inherited.map DeferEffect.unspanned }

/-- A fault without its place, which keeps the scope that it speaks about. -/
def CleanupError.unspanned (e : CleanupError) : CleanupError :=
  ⟨e.fault, e.place.map fun p => (.blank, { p.2 with span := .blank })⟩

end Unspanned

namespace ScopeCleanup

variable (t : ScopeCleanup)

theorem apply_unspanned (e : DeferEffect) : t.unspanned.apply e.unspanned = (t.apply e).unspanned :=
  rfl

theorem noteReturn_unspanned {t t' inner inner' : ScopeCleanup} (ht : t' = t.unspanned)
    (hinner : inner' = inner.unspanned) :
    t'.noteReturn inner' = (t.noteReturn inner).unspanned := by
  rw [ht, hinner]
  rfl

theorem inherit_unspanned (e : DeferEffect) :
    t.unspanned.inherit e.unspanned = (t.inherit e).unspanned := by
  have hlocal : t.unspanned.isLocal e.unspanned.var = t.isLocal e.var := rfl
  simp only [inherit, hlocal]
  split
  · rfl
  · simp [unspanned]

theorem applyAll_unspanned (es : List DeferEffect) :
    t.unspanned.applyAll (es.map DeferEffect.unspanned) = (t.applyAll es).unspanned := by
  induction es generalizing t with
  | nil => rfl
  | cons e es ih =>
    have hstep : (t.unspanned.apply e.unspanned).inherit e.unspanned =
        ((t.apply e).inherit e).unspanned := by
      rw [apply_unspanned, inherit_unspanned]
    simp only [applyAll, map_cons, foldl_cons, hstep]
    exact ih _

theorem replay_unspanned (es : List DeferEffect) :
    t.unspanned.replay (es.map DeferEffect.unspanned) = (t.replay es).unspanned := by
  induction es generalizing t with
  | nil => rfl
  | cons e es ih =>
    have hkind : t.unspanned.isConditional = t.isConditional := rfl
    simp only [replay, map_cons, foldl_cons, hkind, apply_unspanned, inherit_unspanned]
    split
    · exact ih _
    · exact ih _

theorem actions_unspanned (var : SymbolId) :
    t.unspanned.actions var = (t.actions var).map CleanupAction.unspanned := by
  have hregistered : t.unspanned.registered = t.registered.map fun r => (r.1, r.2.unspanned) := rfl
  have hfound {own : SymbolId × CleanupAction → Option CleanupAction}
      (h : ∀ r, own (r.1, r.2.unspanned) = (own r).map CleanupAction.unspanned) :
      (t.registered.map fun r => (r.1, r.2.unspanned)).filterMap own =
        (t.registered.filterMap own).map CleanupAction.unspanned := by
    rw [filterMap_map, map_filterMap]
    exact congrArg (List.filterMap · t.registered) (funext h)
  unfold actions
  rw [hregistered, hfound]
  · cases List.filterMap _ t.registered <;> rfl
  · intro r
    by_cases hvar : r.1 = var
    · simp [hvar]
    · simp [hvar]

end ScopeCleanup

namespace Cleanup

section Deferred

variable (ctx : Context) (t : ScopeCleanup)

/-- The cleanup at two exits is the same up to spans. -/
theorem sequence_unspanned (order : List SymbolId) (exit exit' : Span) :
    (sequence ctx.unspanned t.unspanned order exit').map Cleanup.unspanned =
      (sequence ctx t order exit).map Cleanup.unspanned := by
  simp only [sequence, map_flatMap]
  congr 1
  funext var
  have hget : ctx.unspanned.symbols.get? var = (ctx.symbols.get? var).map Symbol.unspanned :=
    ctx.symbols.get?_unspanned var
  rw [hget]
  cases ctx.symbols.get? var with
  | none => rfl
  | some s =>
    rw [Option.map_some, t.actions_unspanned]
    simp only [map_map]
    apply map_congr_left
    intro action _
    simp only [Function.comp_apply, Cleanup.erase, CleanupAction.erase_erase, Symbol.unspanned]
    rfl

theorem deferredVars_unspanned (args : List Expr) :
    deferredVars ctx.unspanned t.unspanned (args.map Expr.unspanned) =
      (deferredVars ctx t args).map fun v => (v.1, .blank) := by
  induction args using List.reverseRecOn with
  | nil => rfl
  | append_singleton args arg ih =>
    -- the variables found so far are the same, whatever their places
    obtain ⟨found, hfound⟩ : ∃ found, deferredVars ctx t args = found := ⟨_, rfl⟩
    unfold deferredVars at ih hfound ⊢
    rw [map_append, foldl_append, foldl_append, ih, hfound]
    have hlookup (var : SymbolId) : (found.map fun v => (v.1, Span.blank)).lookup var =
        (found.lookup var).map fun _ => .blank :=
      lookup_mapSnd (fun _ => Span.blank) found var
    have hresolve (id : NodeId) : ctx.unspanned.resolve? id = ctx.resolve? id := rfl
    have htracks (var : SymbolId) : t.unspanned.tracks var = t.tracks var := rfl
    cases arg with
    | var id name =>
      simp only [Expr.unspanned, map_cons, map_nil, Expr.erase, Ident.erase,
        foldl_cons, foldl_nil, hresolve, htracks, hlookup, Option.isNone_map]
      cases ctx.resolve? id with
      | none => rfl
      | some var =>
        simp only
        split
        · rw [map_append]
          rfl
        · rfl
    | _ => rfl

theorem deferEffects_unspanned (c : Call) (vars : List (SymbolId × Span)) :
    deferEffects ctx.unspanned c.unspanned (vars.map fun v => (v.1, .blank)) =
      (deferEffects ctx c vars).map DeferEffect.unspanned := by
  cases vars with
  | nil => rfl
  | cons v others =>
    have howner : ctx.unspanned.symbols.name v.1 = ctx.symbols.name v.1 :=
      ctx.symbols.name_unspanned v.1
    simp only [deferEffects, map_cons, howner, map_append, map_reverse, map_map]
    rfl

theorem deferFaults_unspanned (returnFollows : Bool) (effects : List DeferEffect) :
    deferFaults ctx.unspanned t.unspanned returnFollows (effects.map DeferEffect.unspanned) =
      (deferFaults ctx t returnFollows effects).map CleanupError.unspanned := by
  have hkind : t.unspanned.isConditional = t.isConditional := rfl
  have hname (var : SymbolId) : ctx.unspanned.symbols.name var = ctx.symbols.name var :=
    ctx.symbols.name_unspanned var
  simp only [deferFaults, hkind]
  split
  · simp only [filter_map, map_map, Function.comp_def, hname]
    rfl
  · rfl

theorem planDefer_unspanned (c : Call) (returnFollows : Bool) :
    planDefer ctx.unspanned t.unspanned c.unspanned returnFollows =
      ((planDefer ctx t c returnFollows).1.unspanned,
        (planDefer ctx t c returnFollows).2.map CleanupError.unspanned) := by
  have hargs : c.unspanned.args = c.args.map Expr.unspanned := rfl
  simp only [planDefer, hargs, deferredVars_unspanned, deferEffects_unspanned,
    deferFaults_unspanned, isEmpty_map, ScopeCleanup.applyAll_unspanned]
  split
  · rfl
  split
  · rfl
  · rfl

end Deferred

/-- Two plans that agree up to spans, where `f` takes the spans out of what is planned. -/
structure Agree {α : Type} (f : α → α) (plan plan' : Planned α) : Prop where
  value : f plan'.value = f plan.value
  orders : plan'.orders = plan.orders.unspanned
  errors : plan'.errors = plan.errors.map CleanupError.unspanned

theorem isReturn_unspanned (s : Stmt) : s.unspanned.isReturn = s.isReturn := by
  cases s with
  | ifElse span cond thenBody elseBody => cases elseBody <;> rfl
  | _ => rfl

theorem endsWithReturn_unspanned (ss : List Stmt) :
    endsWithReturn (ss.map Stmt.unspanned) = endsWithReturn ss := by
  rw [endsWithReturn, endsWithReturn, List.getLast?_map]
  cases ss.getLast? with
  | none => rfl
  | some s => exact isReturn_unspanned s

theorem map_cleanup_unspanned (items : List Cleanup) :
    (items.map Stmt.cleanup).map Stmt.unspanned =
      (items.map Cleanup.unspanned).map Stmt.cleanup := by
  rw [map_map, map_map]
  rfl

section Plans

variable (ctx : Context)

theorem entryOrders_unspanned (outer : Option ScopeCleanup) (block : NodeId) (span : Span)
    (kind : ScopeKind) (loopVar : Option SymbolId) :
    entryOrders (outer.map ScopeCleanup.unspanned) block .blank kind loopVar =
      (entryOrders outer block span kind loopVar).unspanned := by
  cases outer <;> cases loopVar <;> rfl

theorem agree_planEnd (id : NodeId) (span : Span) {body body' : Planned (List Stmt)}
    (h : Agree (List.map Stmt.unspanned) body body') :
    Agree Block.unspanned (planEnd ctx id span body) (planEnd ctx.unspanned id .blank body') := by
  have hend : endsWithReturn body'.value = endsWithReturn body.value := by
    rw [← endsWithReturn_unspanned body'.value, h.value, endsWithReturn_unspanned]
  have hblock (span : Span) (ss : List Stmt) :
      Block.unspanned ⟨id, span, ss⟩ = ⟨id, .blank, ss.map Stmt.unspanned⟩ := by
    rw [Block.unspanned, eraseBlock, eraseStmts_eq_map]
  have horder : body'.orders.fallOffOrder = body.orders.fallOffOrder := by
    rw [h.orders]
    rfl
  have hcleanups := sequence_unspanned ctx body.orders body.orders.fallOffOrder
    (closingBrace span) (closingBrace .blank)
  simp only [planEnd, hend]
  split
  · exact ⟨by rw [hblock, hblock, h.value], h.orders, h.errors⟩
  · refine ⟨?_, h.orders, h.errors⟩
    rw [hblock, hblock, map_append, map_append, h.value, map_cleanup_unspanned,
      map_cleanup_unspanned, horder, h.orders, hcleanups]

theorem agree_planReturn (t : ScopeCleanup) (span : Span) (value : Option Expr) :
    Agree (List.map Stmt.unspanned) (planReturn ctx t span value)
      (planReturn ctx.unspanned t.unspanned .blank (value.map Expr.unspanned)) := by
  have hcleanups := sequence_unspanned ctx t t.returnOrder span .blank
  have hvalue : (value.map Expr.unspanned).map Expr.unspanned = value.map Expr.unspanned := by
    cases value with
    | none => rfl
    | some e => exact congrArg some (e.erase_erase _ _)
  have hret : Stmt.unspanned (.ret .blank (value.map Expr.unspanned)) =
      Stmt.unspanned (.ret span value) :=
    congrArg (Stmt.ret .blank) hvalue
  refine ⟨?_, rfl, rfl⟩
  change (List.map Stmt.cleanup _ ++ [_]).map Stmt.unspanned =
    (List.map Stmt.cleanup _ ++ [_]).map Stmt.unspanned
  rw [map_append, map_append, map_cleanup_unspanned, map_cleanup_unspanned,
    map_singleton, map_singleton, hret]
  exact congrArg (fun items => items.map Stmt.cleanup ++ _) hcleanups

mutual

theorem agree_planStmt (t : ScopeCleanup) (returnFollows : Bool) : ∀ s : Stmt,
    Agree (List.map Stmt.unspanned) (planStmt ctx t returnFollows s)
      (planStmt ctx.unspanned t.unspanned returnFollows s.unspanned)
  | .varDecl d => by
    refine ⟨congrArg (fun d => [Stmt.varDecl d]) (d.erase_erase _ _), ?_, rfl⟩
    have hsymbol : ctx.unspanned.declSymbol? d.unspanned.id = ctx.declSymbol? d.id := rfl
    simp only [Stmt.erase, planStmt, hsymbol]
    cases ctx.declSymbol? d.id <;> rfl
  | .defer span call => by
    have hdefer := planDefer_unspanned ctx t call returnFollows
    simp only [Stmt.erase, planStmt, hdefer]
    exact ⟨congrArg (fun c => [Stmt.defer .blank c]) (call.erase_erase _ _), rfl, rfl⟩
  | .ret span value => agree_planReturn ctx t span value
  | .block body => by
    have hbody := agree_planBlock (some t) .block none body
    have hreplay : t.unspanned.replay (planBlock ctx.unspanned (some t.unspanned) .block none
        (Block.unspanned body)).orders.inherited =
          (t.replay (planBlock ctx (some t) .block none body).orders.inherited).unspanned := by
      rw [← t.replay_unspanned]
      exact congrArg (fun u => t.unspanned.replay u.inherited) hbody.orders
    exact ⟨congrArg (fun b => [Stmt.block b]) hbody.value,
      ScopeCleanup.noteReturn_unspanned hreplay hbody.orders, hbody.errors⟩
  | .ifElse span cond thenBody none => by
    have hthen := agree_planBlock (some t) .thenBranch none thenBody
    refine ⟨?_, ScopeCleanup.noteReturn_unspanned rfl hthen.orders, hthen.errors⟩
    exact congrArg₂ (fun e b => [Stmt.ifElse .blank e b none]) (cond.erase_erase _ _) hthen.value
  | .ifElse span cond thenBody (some elseBody) => by
    have hthen := agree_planBlock (some t) .thenBranch none thenBody
    have helse := agree_planBlock (some t) .elseBranch none elseBody
    have hnote := ScopeCleanup.noteReturn_unspanned (t := t) rfl hthen.orders
    refine ⟨?_, ScopeCleanup.noteReturn_unspanned hnote helse.orders, ?_⟩
    · simp only [Stmt.erase, planStmt, map_cons, map_nil, Expr.erase_erase]
      exact congrArg₂ (fun a b => [Stmt.ifElse .blank _ a (some b)]) hthen.value helse.value
    · exact (congrArg₂ _ hthen.errors helse.errors).trans map_append.symm
  | .whileLoop span cond body => by
    have hbody := agree_planBlock (some t) .whileBody none body
    refine ⟨?_, ScopeCleanup.noteReturn_unspanned rfl hbody.orders, hbody.errors⟩
    exact congrArg₂ (fun e b => [Stmt.whileLoop .blank e b]) (cond.erase_erase _ _) hbody.value
  | .forIn id span var iter body => by
    have hbody := agree_planBlock (some t) .forBody (ctx.declSymbol? id) body
    refine ⟨?_, ScopeCleanup.noteReturn_unspanned rfl hbody.orders, hbody.errors⟩
    exact congrArg₂ (fun e b => [Stmt.forIn id .blank var.erase e b]) (iter.erase_erase _ _)
      hbody.value
  | .assign span target value => by
    refine ⟨?_, rfl, rfl⟩
    exact congrArg₂ (fun l e => [Stmt.assign .blank l e]) (target.erase_erase _ _)
      (value.erase_erase _ _)
  | .call span call =>
    ⟨congrArg (fun c => [Stmt.call .blank c]) (call.erase_erase _ _), rfl, rfl⟩
  | .cleanup _ => ⟨rfl, rfl, rfl⟩

theorem agree_planBlock (outer : Option ScopeCleanup) (kind : ScopeKind)
    (loopVar : Option SymbolId) : ∀ b : BlockOf Stmt,
    Agree Block.unspanned (planBlock ctx outer kind loopVar b)
      (planBlock ctx.unspanned (outer.map ScopeCleanup.unspanned) kind loopVar (Block.unspanned b))
  | ⟨id, span, stmts⟩ => by
    have hstmts := agree_planStmts (entryOrders outer id span kind loopVar) stmts
    rw [← entryOrders_unspanned] at hstmts
    exact agree_planEnd ctx id span hstmts

theorem agree_planStmts (t : ScopeCleanup) : ∀ ss : List Stmt,
    Agree (List.map Stmt.unspanned) (planStmts ctx t ss)
      (planStmts ctx.unspanned t.unspanned (eraseStmts (fun id => id) ss))
  | [] => ⟨rfl, rfl, rfl⟩
  | s :: ss => by
    have hreturn : (eraseStmts (fun id => id) ss).any Stmt.isReturn = ss.any Stmt.isReturn := by
      rw [eraseStmts_eq_map, any_map]
      congr 1
      exact funext isReturn_unspanned
    have hfirst := agree_planStmt t (ss.any Stmt.isReturn) s
    have hrest := agree_planStmts (planStmt ctx t (ss.any Stmt.isReturn) s).orders ss
    rw [← hfirst.orders] at hrest
    simp only [eraseStmts, planStmts, hreturn]
    refine ⟨?_, hrest.orders, ?_⟩
    · rw [map_append, map_append, hfirst.value, hrest.value]
    · rw [map_append, hfirst.errors, hrest.errors]

end

end Plans

section Items

variable (ctx : Context)

theorem planCtor_unspanned (className : String) (c : CtorDecl) :
    (planCtor ctx.unspanned className c.unspanned).1.unspanned =
        (planCtor ctx className c).1.unspanned ∧
      (planCtor ctx.unspanned className c.unspanned).2.2 =
        (planCtor ctx className c).2.2.map CleanupError.unspanned := by
  obtain ⟨span, kind, isExplicit, body⟩ := c
  cases body with
  | body block =>
    have hblock := agree_planBlock ctx none .body none block
    exact ⟨congrArg (fun b => CtorDecl.mk .blank kind isExplicit (.body b)) hblock.value,
      hblock.errors⟩
  | defaulted | deleted => exact ⟨rfl, rfl⟩

theorem planClass_unspanned (c : ClassDef) :
    (planClass ctx.unspanned c.unspanned).1.unspanned = (planClass ctx c).1.unspanned ∧
      (planClass ctx.unspanned c.unspanned).2.2 =
        (planClass ctx c).2.2.map CleanupError.unspanned := by
  have hctor := planCtor_unspanned ctx c.name.name
  have hfields : (c.fields.map FieldDef.erase).map FieldDef.erase =
      c.fields.map FieldDef.erase := by
    rw [map_map]
    exact map_congr_left fun f _ => f.erase_erase
  simp only [planClass, ClassDef.erase, Ident.erase, hfields, map_map, flatMap_map,
    map_flatMap, Function.comp_def, hctor, and_self]

theorem planFunction_unspanned (f : Function) :
    (planFunction ctx.unspanned f.unspanned).1.unspanned = (planFunction ctx f).1.unspanned ∧
      (planFunction ctx.unspanned f.unspanned).2.2 =
        (planFunction ctx f).2.2.map CleanupError.unspanned := by
  have hbody := agree_planBlock ctx none .body none f.body
  exact ⟨congrArg (fun b => DeferLang.Function.mk f.id .blank f.name.erase b) hbody.value,
    hbody.errors⟩

end Items

end Cleanup

/-- Planning does not look at spans: it plans the same program, and finds the same faults. -/
theorem Program.planCleanup_unspanned (ctx : Context) (p : Program) :
    (p.unspanned.planCleanup ctx.unspanned).1.program.unspanned =
        (p.planCleanup ctx).1.program.unspanned ∧
      (p.unspanned.planCleanup ctx.unspanned).2 =
        (p.planCleanup ctx).2.map CleanupError.unspanned := by
  simp only [planCleanup, Program.erase, map_map, flatMap_map, map_append, map_flatMap,
    Function.comp_def, Cleanup.planClass_unspanned, Cleanup.planFunction_unspanned, and_self]

namespace Context

variable (c : Context)

mutual

theorem coversStmt_unspanned : ∀ s : Stmt, c.unspanned.coversStmt s.unspanned = c.coversStmt s
  | .varDecl _ => rfl
  | .block body => coversBlock_unspanned body
  | .ifElse _ _ thenBody none => coversBlock_unspanned thenBody
  | .ifElse _ _ thenBody (some elseBody) =>
    congrArg₂ (· && ·) (coversBlock_unspanned thenBody) (coversBlock_unspanned elseBody)
  | .whileLoop _ _ body => coversBlock_unspanned body
  | .forIn id _ _ _ body =>
    congrArg ((c.declSymbol? id).isSome && ·) (coversBlock_unspanned body)
  | .assign _ _ _ | .call _ _ | .ret _ _ | .defer _ _ | .cleanup _ => rfl

theorem coversBlock_unspanned : ∀ b : BlockOf Stmt,
    c.unspanned.coversBlock (Block.unspanned b) = c.coversBlock b
  | ⟨id, _, stmts⟩ =>
    congrArg ((c.scopeLocals.lookup id).isSome && ·) (coversStmts_unspanned stmts)

theorem coversStmts_unspanned : ∀ ss : List Stmt,
    c.unspanned.coversStmts (eraseStmts (fun id => id) ss) = c.coversStmts ss
  | [] => rfl
  | s :: ss => congrArg₂ (· && ·) (coversStmt_unspanned s) (coversStmts_unspanned ss)

end

theorem covers_unspanned (p : Program) : c.unspanned.covers p.unspanned = c.covers p := by
  rw [covers, covers, p.ctorBlocks_unspanned]
  simp only [Program.erase, all_map, Function.comp_def, Function.erase, coversBlock_unspanned]

end Context

end DeferLang
