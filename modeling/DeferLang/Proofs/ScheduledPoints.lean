import DeferLang.Proofs.Nesting
import DeferLang.Proofs.Tracking

/-!
# Where cleanup stands in a scheduled body

In a body with its cleanup, cleanup statements stand in front of the exits and
nowhere else, and in front of every exit stands exactly the cleanup that the
exit asks for.  `Point.Scheduled` says this of one point.  It is proved by
following the orders of the scopes through the body.
-/

namespace DeferLang

open List
open Cleanup hiding span

variable {items : List Cleanup} {errors : List CleanupError} {p : Point} {span : Span}

/-- Cleanup stands where it should around a point, and a `defer` behind it takes effect unless
one of `errors` was reported. -/
structure Point.Scheduled (ctx : Context) (errors : List CleanupError) (p : Point) : Prop where
  /-- In front of an exit stands its cleanup, and no more. -/
  exit : ∀ kind span, p.exit? = some (kind, span) → p.cleanupRun = p.exitCleanup ctx kind span
  /-- A cleanup statement continues the cleanup of an exit. -/
  cleanup : ∀ item, p.next? = some (.cleanup item) →
    ∃ kind exit later, p.cleanupRun ++ item :: later = p.exitCleanup ctx kind exit
  /-- Behind cleanup stands only cleanup or a `return`. -/
  quiet : ∀ s, p.next? = some s → s.isCleanup = false → s.isReturn = false → p.cleanupRun = []
  /-- Without an error a `defer` hits a variable. -/
  deferred : errors = [] → ∀ span call, p.next? = some (.defer span call) → p.hitsHere ctx ≠ []

/-- What holds with some errors holds with more. -/
theorem Point.Scheduled.of_errors {ctx : Context} {errors' : List CleanupError}
    (h : p.Scheduled ctx errors) (hmore : errors' = [] → errors = []) : p.Scheduled ctx errors' :=
  ⟨h.exit, h.cleanup, h.quiet, fun hnone => h.deferred (hmore hnone)⟩

section Sequences

variable {ctx : Context} {sc : OpenScope} {outer : Point} {t : ScopeCleanup}

/-- The actions of a visible variable are those of the hits on it. -/
theorem Tracks.actions_eq (h : Tracks ctx sc outer t) {x : LocalVar}
    (hx : x ∈ Point.visible (sc :: outer)) :
    t.actions (ctx.symbolOf x) = actionsOn (Point.hits ctx (sc :: outer)) x := by
  -- whatever picks the actions on the symbol from the registered ones finds the same
  have hfound (pick : SymbolId × CleanupAction → Option CleanupAction)
      (hpick : ∀ hit, pick hit = if hit.1 = ctx.symbolOf x then some hit.2 else none) :
      t.registered.filterMap pick = (Point.hits ctx (sc :: outer)).filterMap (actionOn? x) := by
    rw [h.follows.registered_eq]
    induction Point.hits ctx (sc :: outer) with
    | nil => rfl
    | cons hit hits ih =>
      obtain ⟨y, action⟩ := hit
      by_cases hy : y ∈ Point.visible (sc :: outer)
      · rw [filter_cons_of_pos (by simpa using hy), map_cons, filterMap_cons,
          filterMap_cons, ih, hpick]
        by_cases hyx : y = x
        · subst hyx
          simp [Context.symbolHit, actionOn?]
        · have hne : ctx.symbolOf y ≠ ctx.symbolOf x :=
            fun e => hyx ((h.knows y hy).eq_of_symbolOf (h.knows x hx) e)
          simp [Context.symbolHit, actionOn?, hyx, hne]
      · have hyx : y ≠ x := fun e => hy (e ▸ hx)
        rw [filter_cons_of_neg (by simpa using hy), ih, filterMap_cons]
        simp [actionOn?, hyx]
  unfold ScopeCleanup.actions
  rw [hfound _ fun _ => rfl]
  unfold actionsOn
  cases (Point.hits ctx (sc :: outer)).filterMap (actionOn? x) with
  | nil | cons action found => rfl

/-- The cleanup of visible variables in an order. -/
theorem Tracks.sequence_eq (h : Tracks ctx sc outer t) (exit : Span) {order : List LocalVar}
    (horder : ∀ x ∈ order, x ∈ Point.visible (sc :: outer)) :
    Cleanup.sequence ctx t (order.map ctx.symbolOf) exit =
      cleanupOf (Point.hits ctx (sc :: outer)) exit order := by
  induction order with
  | nil => rfl
  | cons x xs ih =>
    have hx := horder x mem_cons_self
    obtain ⟨s, hs, hdecl, hname⟩ := (h.knows x hx).get_symbolOf
    have htail := ih fun y hy => horder y (mem_cons_of_mem x hy)
    have hfirst : Cleanup.sequence ctx t [ctx.symbolOf x] exit =
        cleanupOf (Point.hits ctx (sc :: outer)) exit [x] := by
      simp only [Cleanup.sequence, cleanupOf, flatMap_cons, flatMap_nil,
        append_nil, hs, h.actions_eq hx, hdecl, hname]
    calc Cleanup.sequence ctx t ((x :: xs).map ctx.symbolOf) exit
        = Cleanup.sequence ctx t [ctx.symbolOf x] exit ++
            Cleanup.sequence ctx t (xs.map ctx.symbolOf) exit := by
          simp only [Cleanup.sequence, map_cons, flatMap_cons, flatMap_nil, append_nil]
      _ = cleanupOf (Point.hits ctx (sc :: outer)) exit [x] ++
            cleanupOf (Point.hits ctx (sc :: outer)) exit xs := by rw [hfirst, htail]
      _ = cleanupOf (Point.hits ctx (sc :: outer)) exit (x :: xs) := by
          simp only [cleanupOf, flatMap_cons, flatMap_nil, append_nil]

theorem Tracks.sequence_returnOrder (h : Tracks ctx sc outer t) (exit : Span) :
    Cleanup.sequence ctx t t.returnOrder exit =
      Point.exitCleanup ctx (sc :: outer) .ret exit := by
  rw [h.follows.returnOrder_eq, h.sequence_eq exit fun x hx => mem_deferOrder.1 hx]
  rfl

theorem Tracks.fallOffOrder_eq (h : Tracks ctx sc outer t) :
    t.fallOffOrder = ((Point.order ctx (sc :: outer)).filter (· ∈ sc.own)).map ctx.symbolOf := by
  rw [ScopeCleanup.fallOffOrder, h.follows.scopeEndOrder_eq, filter_map]
  congr 1
  apply filter_congr
  intro x hx
  have hiff := h.isLocal_iff (h.knows x (mem_deferOrder.1 hx))
  rw [Function.comp_apply, Bool.eq_iff_iff, hiff, decide_eq_true_eq]

theorem Tracks.sequence_fallOffOrder (h : Tracks ctx sc outer t) (exit : Span) :
    Cleanup.sequence ctx t t.fallOffOrder exit =
      Point.exitCleanup ctx (sc :: outer) .fallOff exit := by
  have hvisible : ∀ x ∈ (Point.order ctx (sc :: outer)).filter (· ∈ sc.own),
      x ∈ Point.visible (sc :: outer) :=
    fun x hx => mem_deferOrder.1 (mem_of_mem_filter hx)
  rw [h.fallOffOrder_eq, h.sequence_eq exit hvisible]
  rfl

end Sequences

section CleanupRuns

variable {ctx : Context} {head : ScopeHead} {before rest : List Stmt} {outer : Point}
  {t : ScopeCleanup}

theorem exitCleanup_append_cleanup (items : List Cleanup) (kind : ExitKind) (exit : Span) :
    Point.exitCleanup ctx (⟨head, before ++ items.map .cleanup, rest⟩ :: outer) kind exit =
      Point.exitCleanup ctx (⟨head, before, items.map .cleanup ++ rest⟩ :: outer) kind exit := by
  have hown : Point.own (⟨head, before ++ items.map .cleanup, rest⟩ :: outer) =
      Point.own (⟨head, before, items.map .cleanup ++ rest⟩ :: outer) := by
    have hvisible := Point.visible_append_cleanup outer head before rest
      (items.map .cleanup ++ rest) items
    exact append_cancel_left hvisible
  cases kind <;>
    simp only [Point.exitCleanup, Point.order, Point.hits, Point.defers_append_cleanup,
      Point.visible_append_cleanup outer head before rest (items.map .cleanup ++ rest), hown]

theorem Tracks.append_cleanup
    (h : Tracks ctx ⟨head, before, items.map .cleanup ++ rest⟩ outer t) :
    Tracks ctx ⟨head, before ++ items.map .cleanup, rest⟩ outer t := by
  induction items generalizing before with
  | nil => simpa using h
  | cons item items ih =>
    have hnext : Tracks ctx ⟨head, before ++ [.cleanup item], items.map .cleanup ++ rest⟩ outer t :=
      Tracks.advance h rfl rfl
    simpa using ih hnext

theorem mem_pointsAmong_cleanup
    (hp : p ∈ Point.pointsAmong outer head before rest (items.map .cleanup)) :
    ∃ earlier item later, items = earlier ++ item :: later ∧
      p = ⟨head, before ++ earlier.map .cleanup,
        .cleanup item :: (later.map .cleanup ++ rest)⟩ :: outer := by
  induction items generalizing before with
  | nil => contradiction
  | cons item items ih =>
    rw [map_cons, Point.pointsAmong, Point.pointsIn, nil_append, mem_cons] at hp
    rcases hp with rfl | hp
    · exact ⟨[], item, items, rfl, by simp⟩
    · obtain ⟨earlier, item', later, rfl, rfl⟩ := ih hp
      exact ⟨item :: earlier, item', later, rfl, by simp⟩

/-- The points in front of the cleanup statements of an exit. -/
theorem scheduled_of_mem_cleanup {kind : ExitKind} {exit : Span}
    (hbefore : trailingCleanup before = []) (hitems : items =
      Point.exitCleanup ctx (⟨head, before, items.map .cleanup ++ rest⟩ :: outer) kind exit)
    (hp : p ∈ Point.pointsAmong outer head before rest (items.map .cleanup))
    (errors : List CleanupError) : p.Scheduled ctx errors := by
  obtain ⟨earlier, item, later, hsplit, rfl⟩ := mem_pointsAmong_cleanup hp
  have hrun : Point.cleanupRun (⟨head, before ++ earlier.map .cleanup,
      .cleanup item :: (later.map .cleanup ++ rest)⟩ :: outer) = earlier := by
    rw [Point.cleanupRun, trailingCleanup_append_cleanup, hbefore, nil_append]
  constructor
  · intro kind span hexit
    contradiction
  · intro item' hnext
    obtain rfl : item = item' := by simpa [Point.next?] using hnext
    refine ⟨kind, exit, later, ?_⟩
    have hrest : earlier.map Stmt.cleanup ++ .cleanup item :: (later.map .cleanup ++ rest) =
        items.map .cleanup ++ rest := by
      rw [hsplit]
      simp
    rw [hrun, exitCleanup_append_cleanup, hrest, ← hitems, hsplit]
  · intro s hnext hcleanup
    obtain rfl : .cleanup item = s := by simpa [Point.next?] using hnext
    contradiction
  · intro _ span call hnext
    simp [Point.next?] at hnext

end CleanupRuns

section Unchanged

variable (ctx : Context)

/-- Planning keeps the `return`s of a scope. -/
theorem any_isReturn_planStmt (t : ScopeCleanup) (returnFollows : Bool) (s : Stmt) :
    (planStmt ctx t returnFollows s).value.any Stmt.isReturn = s.isReturn := by
  cases s with
  | ret span value =>
    rw [planStmt, planReturn]
    simp [Stmt.isReturn]
  | ifElse span cond thenBody elseBody => cases elseBody <;> rfl
  | _ => rfl

theorem any_isReturn_planStmts (t : ScopeCleanup) (ss : List Stmt) :
    (planStmts ctx t ss).value.any Stmt.isReturn = ss.any Stmt.isReturn := by
  induction ss generalizing t with
  | nil => rfl
  | cons s ss ih =>
    rw [planStmts, any_append, any_isReturn_planStmt, ih, any_cons]

/-- Cleanup statements at the end are no `return`. -/
theorem endsWithReturn_append_cleanup {stmts : List Stmt} (h : endsWithReturn stmts = false)
    (items : List Cleanup) : endsWithReturn (stmts ++ items.map .cleanup) = false := by
  unfold endsWithReturn
  rw [List.getLast?_append]
  cases hlast : (items.map Stmt.cleanup).getLast? with
  | none => exact h
  | some s =>
    obtain ⟨item, -, rfl⟩ := mem_map.1 (mem_of_getLast? hlast)
    rfl

end Unchanged

/-- Variables that are declared from a point on are known, distinct, and new there. -/
structure Fresh (ctx : Context) (p : Point) (xs : List LocalVar) : Prop where
  nodup : xs.Nodup
  knows : ∀ x ∈ xs, ctx.Knows x
  not_visible : ∀ x ∈ xs, x ∉ p.visible
  not_hit : ∀ x ∈ xs, x ∉ (p.hits ctx).map Prod.fst

namespace Fresh

variable {ctx : Context} {head : ScopeHead} {before rest : List Stmt} {outer p : Point}
  {s : Stmt} {xs ys : List LocalVar}

theorem of_sublist (h : Fresh ctx p xs) (hsub : ys.Sublist xs) : Fresh ctx p ys where
  nodup := hsub.nodup h.nodup
  knows x hx := h.knows x (hsub.subset hx)
  not_visible x hx := h.not_visible x (hsub.subset hx)
  not_hit x hx := h.not_hit x (hsub.subset hx)

theorem left (h : Fresh ctx p (xs ++ ys)) : Fresh ctx p xs :=
  h.of_sublist (sublist_append_left _ _)

theorem right (h : Fresh ctx p (xs ++ ys)) : Fresh ctx p ys :=
  h.of_sublist (sublist_append_right _ _)

/-- What is declared behind a statement is still new behind it. -/
theorem advance (h : Fresh ctx (⟨head, before, s :: rest⟩ :: outer) (s.decls ++ ys)) :
    Fresh ctx (⟨head, before ++ [s], rest⟩ :: outer) ys := by
  have hdisjoint : ∀ x ∈ ys, x ∉ s.decls :=
    fun x hx hs => (nodup_append.1 h.nodup).2.2 x hs x hx rfl
  refine ⟨h.right.nodup, h.right.knows, ?_, ?_⟩
  · intro x hx hvisible
    rw [Point.visible_advance, mem_append] at hvisible
    rcases hvisible with hvisible | hdeclared
    · exact h.right.not_visible x hx hvisible
    · exact hdisjoint x hx (s.declared_subset_decls x (Option.mem_toList.1 hdeclared))
  · intro x hx hhit
    rw [Point.hits_advance, map_append, mem_append] at hhit
    rcases hhit with hhit | hhit
    · -- what a `defer` in the statement hits is visible there
      obtain ⟨hit, hmem, rfl⟩ := mem_map.1 hhit
      obtain ⟨q, hq, hhere⟩ := mem_flatMap.1 hmem
      have hin := Point.visible_of_mem_defersAt rfl hq (mem_visible_of_mem_hitsHere hhere)
      rcases mem_append.1 hin with hin | hin
      · exact h.right.not_visible _ hx hin
      · exact hdisjoint _ hx hin
    · exact h.right.not_hit x hx hhit

theorem advance_append {stmts : List Stmt}
    (h : Fresh ctx (⟨head, before, stmts ++ rest⟩ :: outer) (declsOfStmts stmts ++ ys)) :
    Fresh ctx (⟨head, before ++ stmts, rest⟩ :: outer) ys := by
  induction stmts generalizing before with
  | nil => simpa [declsOfStmts] using h
  | cons s stmts ih =>
    rw [declsOfStmts, append_assoc] at h
    simpa using ih h.advance

/-- What is declared in a block is new at its start; the variable of its loop comes first. -/
theorem enter {id : NodeId} {kind : ScopeKind} {loopVar : Option LocalVar}
    (h : Fresh ctx p (loopVar.toList ++ ys)) :
    Fresh ctx (⟨⟨id, span, kind, loopVar⟩, [], rest⟩ :: p) ys := by
  have hvisible : Point.visible (⟨⟨id, span, kind, loopVar⟩, [], rest⟩ :: p) =
      p.visible ++ loopVar.toList := by
    simp [Point.visible, OpenScope.own]
  have hhits : Point.hits ctx (⟨⟨id, span, kind, loopVar⟩, [], rest⟩ :: p) = p.hits ctx := by
    simp [Point.hits, Point.defers, Point.defersAmong]
  refine ⟨h.right.nodup, h.right.knows, ?_, ?_⟩
  · intro x hx hin
    rw [hvisible, mem_append] at hin
    rcases hin with hin | hin
    · exact h.right.not_visible x hx hin
    · exact (nodup_append.1 h.nodup).2.2 x hin x hx rfl
  · rw [hhits]
    exact h.right.not_hit

end Fresh

/-- Planned statements, in their place between `before` and `rest`: the orders behind them are
right, the last of them is no cleanup, and all their points are as they should be. -/
structure PlannedWell (ctx : Context) (outer : Point) (head : ScopeHead) (before rest : List Stmt)
    (planned : Cleanup.Planned (List Stmt)) : Prop where
  tracks : Tracks ctx ⟨head, before ++ planned.value, rest⟩ outer planned.orders
  trailing : trailingCleanup (before ++ planned.value) = []
  scheduled : ∀ p ∈ Point.pointsAmong outer head before rest planned.value,
    p.Scheduled ctx planned.errors

section Statements

variable {ctx : Context} {outer : Point} {head : ScopeHead} {before rest : List Stmt}

/-- A point in front of a statement that is neither cleanup nor a `return`. -/
theorem scheduled_quiet {s : Stmt} (hcleanup : s.isCleanup = false)
    (hreturn : s.isReturn = false) (hbefore : trailingCleanup before = [])
    (hdefer : errors = [] → ∀ span call, s = .defer span call →
      Point.hitsHere ctx (⟨head, before, s :: rest⟩ :: outer) ≠ []) :
    Point.Scheduled ctx errors (⟨head, before, s :: rest⟩ :: outer) := by
  constructor
  · intro kind span hexit
    cases s with
    | _ => contradiction
  · intro item hnext
    obtain rfl : s = .cleanup item := by simpa [Point.next?] using hnext
    contradiction
  · intro s' _ _ _
    exact hbefore
  · intro hnone span call hnext
    exact hdefer hnone span call (by simpa [Point.next?] using hnext)

/-- The end of a block, where cleanup stands if it is an exit. -/
theorem scheduled_end
    (hexit : ∀ kind span, Point.exit? (⟨head, before, []⟩ :: outer) = some (kind, span) →
      trailingCleanup before = Point.exitCleanup ctx (⟨head, before, []⟩ :: outer) kind span) :
    Point.Scheduled ctx errors (⟨head, before, []⟩ :: outer) :=
  ⟨hexit, fun _ h => by contradiction, fun _ h => by contradiction, fun _ _ _ h => by contradiction⟩

/-- One statement, which is neither cleanup nor a `return`, is planned as one statement. -/
theorem PlannedWell.of_single {s : Stmt} {planned : Cleanup.Planned (List Stmt)}
    (hvalue : planned.value = [s]) (hcleanup : s.isCleanup = false)
    (hreturn : s.isReturn = false) (hbefore : trailingCleanup before = [])
    (hdefer : planned.errors = [] → ∀ span call, s = .defer span call →
      Point.hitsHere ctx (⟨head, before, s :: rest⟩ :: outer) ≠ [])
    (htracks : Tracks ctx ⟨head, before ++ [s], rest⟩ outer planned.orders)
    (hinside : ∀ p ∈ Point.pointsIn (⟨head, before, s :: rest⟩ :: outer) s,
      p.Scheduled ctx planned.errors) :
    PlannedWell ctx outer head before rest planned := by
  constructor
  · rw [hvalue]
    exact htracks
  · rw [hvalue, trailingCleanup_append_of_not _ hcleanup]
  · rw [hvalue, Point.pointsAmong, Point.pointsAmong, append_nil, nil_append]
    intro p hp
    rcases mem_cons.1 hp with rfl | hp
    · exact scheduled_quiet hcleanup hreturn hbefore hdefer
    · exact hinside p hp

/-- A `return` is planned. -/
theorem PlannedWell.of_return {t : ScopeCleanup} {value : Option Expr} (htracks : Tracks ctx
      ⟨head, before, (planReturn ctx t span value).value ++ rest⟩ outer t)
    (hbefore : trailingCleanup before = []) :
    PlannedWell ctx outer head before rest (planReturn ctx t span value) := by
  have hvalue : (planReturn ctx t span value).value =
      (Cleanup.sequence ctx t t.returnOrder span).map .cleanup ++ [.ret span value] := rfl
  -- the cleanup in front changes neither what is visible nor what is hit
  have hitems := htracks.sequence_returnOrder span
  rw [hvalue, append_assoc, singleton_append] at htracks hitems
  have hreturn := htracks.append_cleanup
  constructor
  · rw [hvalue, ← append_assoc]
    exact (hreturn.advance rfl rfl).withReturn true
  · rw [hvalue, ← append_assoc, trailingCleanup_append_of_not _ rfl]
  · intro p hp
    rw [hvalue, Point.pointsAmong_append, mem_append] at hp
    rcases hp with hp | hp
    · exact scheduled_of_mem_cleanup hbefore hitems hp _
    · obtain rfl : p = ⟨head, before ++
          (Cleanup.sequence ctx t t.returnOrder span).map .cleanup, .ret span value :: rest⟩ ::
            outer := by
        simpa [Point.pointsAmong, Point.pointsIn] using hp
      constructor
      · intro kind exit hexit
        obtain ⟨rfl, rfl⟩ : ExitKind.ret = kind ∧ span = exit := by
          simpa [Point.exit?] using hexit
        rw [Point.cleanupRun, trailingCleanup_append_cleanup, hbefore, nil_append,
          exitCleanup_append_cleanup]
        exact hitems
      · intro item hnext
        simp [Point.next?] at hnext
      · intro s hnext _ hnot
        obtain rfl : .ret span value = s := by simpa [Point.next?] using hnext
        contradiction
      · intro _ span call hnext
        simp [Point.next?] at hnext

/-- A block is closed behind its planned statements. -/
theorem planEnd_scheduled {id : NodeId} {kind : ScopeKind}
    {loopVar : Option LocalVar} {body : Cleanup.Planned (List Stmt)}
    (hbody : ∀ after : List Stmt, (∀ s ∈ after, s.isCleanup = true) →
      PlannedWell ctx outer ⟨id, span, kind, loopVar⟩ [] after body) :
    Tracks ctx ⟨⟨(planEnd ctx id span body).value.id,
        (planEnd ctx id span body).value.span, kind, loopVar⟩,
          (planEnd ctx id span body).value.stmts, []⟩ outer
        (planEnd ctx id span body).orders ∧
      ∀ p ∈ Point.pointsOf outer kind loopVar (planEnd ctx id span body).value,
        p.Scheduled ctx (planEnd ctx id span body).errors := by
  unfold planEnd
  split
  · rename_i hreturn
    have hwell := hbody [] (by simp)
    refine ⟨by simpa using hwell.tracks, ?_⟩
    intro p hp
    rw [Point.pointsOf, mem_append, mem_singleton] at hp
    rcases hp with hp | rfl
    · exact hwell.scheduled p hp
    · -- The block ends in a `return`, so its end is no exit.
      refine scheduled_end fun kind span hexit => ?_
      simp [Point.exit?, hreturn] at hexit
  · rename_i hreturn
    dsimp only
    generalize hclose : closingBrace span = close
    generalize hitems : Cleanup.sequence ctx body.orders body.orders.fallOffOrder close = items
    -- the statements are followed by the cleanup of the end of the block
    have hwell := hbody (items.map .cleanup) (by simp [Stmt.isCleanup])
    have htracks := hwell.tracks
    have htrailing := hwell.trailing
    rw [nil_append] at htracks htrailing
    have hexit : items = Point.exitCleanup ctx
        (⟨⟨id, span, kind, loopVar⟩, body.value, items.map .cleanup ++ []⟩ :: outer)
          .fallOff close := by
      rw [append_nil, ← htracks.sequence_fallOffOrder, hitems]
    rw [← append_nil (items.map Stmt.cleanup)] at htracks
    refine ⟨htracks.append_cleanup, ?_⟩
    intro p hp
    rw [Point.pointsOf, Point.pointsAmong_append, append_nil, nil_append,
      mem_append, mem_append, mem_singleton] at hp
    rcases hp with (hp | hp) | rfl
    · exact hwell.scheduled p hp
    · exact scheduled_of_mem_cleanup htrailing hexit hp _
    · refine scheduled_end fun kind' span' hexit' => ?_
      have hends : endsWithReturn (body.value ++ items.map .cleanup) = false :=
        endsWithReturn_append_cleanup (by simpa using hreturn) items
      obtain ⟨rfl, rfl⟩ : ExitKind.fallOff = kind' ∧ close = span' := by
        simpa [Point.exit?, hends, hclose] using hexit'
      rw [trailingCleanup_append_cleanup, htrailing, nil_append, exitCleanup_append_cleanup]
      exact hexit

end Statements

section Bodies

variable {ctx : Context}

mutual

/-- A statement is planned in its place. -/
theorem planStmt_scheduled {outer : Point} {head : ScopeHead} {before rest : List Stmt}
    {t : ScopeCleanup} {returnFollows : Bool} {s : Stmt}
    (hreturn : rest.any Stmt.isReturn = returnFollows)
    (htracks : Tracks ctx ⟨head, before, (planStmt ctx t returnFollows s).value ++ rest⟩
      outer t) (hfresh : Fresh ctx
      (⟨head, before, (planStmt ctx t returnFollows s).value ++ rest⟩ :: outer) s.decls)
    (hbefore : trailingCleanup before = []) :
    PlannedWell ctx outer head before rest (planStmt ctx t returnFollows s) := by
  match s with
  | .varDecl d =>
    have hin : d.toLocal ∈ Stmt.decls (.varDecl d) := mem_singleton_self _
    have hknows := hfresh.knows _ hin
    have hdeclared := htracks.declare hknows (hfresh.not_visible _ hin) (hfresh.not_hit _ hin)
    have hsymbol : ctx.declSymbol? d.id = some (ctx.symbolOf d.toLocal) := hknows.declSymbol_eq
    refine .of_single rfl rfl rfl hbefore nofun ?_ (fun p hp => by contradiction)
    rw [planStmt, hsymbol]
    exact hdeclared
  | .defer span call =>
    subst hreturn
    refine .of_single rfl rfl rfl hbefore (fun hnone _ _ _ => ?_) (htracks.defer rfl)
      (fun p hp => by contradiction)
    exact (htracks.planDefer_cases rfl).elim (fun h => absurd hnone h.2.2) And.left
  | .ret span value => exact .of_return htracks hbefore
  | .assign _ _ _ | .call _ _ =>
    exact .of_single rfl rfl rfl hbefore nofun (htracks.advance rfl rfl)
      (fun p hp => by contradiction)
  | .cleanup _ =>
    refine ⟨?_, ?_, ?_⟩
    · simpa [planStmt] using htracks
    · simpa [planStmt] using hbefore
    · intro p hp
      contradiction
  | .block body =>
    have hinner := planBlock_scheduled (v := none) (s := body)
      (htracks.enter_plain _ _ .block) hfresh
    exact .of_single rfl rfl rfl hbefore nofun (htracks.block hinner.1) hinner.2
  | .ifElse span cond thenBody none =>
    have hinner := planBlock_scheduled (v := none) (s := thenBody)
      (htracks.enter_plain _ _ .thenBranch) hfresh
    exact .of_single rfl rfl rfl hbefore nofun ((htracks.advance rfl rfl).withReturn _) hinner.2
  | .ifElse span cond thenBody (some elseBody) =>
    have hthen := planBlock_scheduled (v := none) (s := thenBody)
      (htracks.enter_plain _ _ .thenBranch) hfresh.left
    have helse := planBlock_scheduled (v := none) (s := elseBody)
      (htracks.enter_plain _ _ .elseBranch) hfresh.right
    refine .of_single rfl rfl rfl hbefore nofun
      (((htracks.advance rfl rfl).withReturn _).withReturn _) ?_
    intro p hp
    rcases mem_append.1 hp with hp | hp
    · exact (hthen.2 p hp).of_errors fun hnone => (append_eq_nil_iff.1 hnone).1
    · exact (helse.2 p hp).of_errors fun hnone => (append_eq_nil_iff.1 hnone).2
  | .whileLoop span cond body =>
    have hinner := planBlock_scheduled (v := none) (s := body)
      (htracks.enter_plain _ _ .whileBody) hfresh
    exact .of_single rfl rfl rfl hbefore nofun ((htracks.advance rfl rfl).withReturn _) hinner.2
  | .forIn id span var iter body =>
    have hin : (⟨id, var.name⟩ : LocalVar) ∈ Stmt.decls (.forIn id span var iter body) := by
      rw [Stmt.decls, declsOfBlock_some]
      exact mem_cons_self
    have hknows := hfresh.knows _ hin
    have hsymbol : ctx.declSymbol? id = some (ctx.symbolOf ⟨id, var.name⟩) := hknows.declSymbol_eq
    have hinner := planBlock_scheduled (v := some ⟨id, var.name⟩) (s := body)
      (fun rest => htracks.enter _ _ .forBody _ rest
        (by simpa using hknows) (by simpa using hfresh.not_visible _ hin)
        (by simpa using hfresh.not_hit _ hin)) hfresh
    rw [Option.map_some, ← hsymbol] at hinner
    exact .of_single rfl rfl rfl hbefore nofun ((htracks.advance rfl rfl).withReturn _) hinner.2

/-- A block is planned. -/
theorem planBlock_scheduled {outer : Point} {o : Option ScopeCleanup} {k : ScopeKind}
    {v : Option LocalVar} {s : BlockOf Stmt}
    (hentry : ∀ rest, Tracks ctx ⟨⟨s.id, s.span, k, v⟩, [], rest⟩ outer
      (entryOrders o s.id s.span k (v.map ctx.symbolOf)))
    (hfresh : Fresh ctx outer (declsOfBlock v s)) :
    Tracks ctx ⟨⟨(planBlock ctx o k (v.map ctx.symbolOf) s).value.id,
        (planBlock ctx o k (v.map ctx.symbolOf) s).value.span, k, v⟩,
          (planBlock ctx o k (v.map ctx.symbolOf) s).value.stmts, []⟩ outer
        (planBlock ctx o k (v.map ctx.symbolOf) s).orders ∧
      ∀ p ∈ Point.pointsOf outer k v (planBlock ctx o k (v.map ctx.symbolOf) s).value,
        p.Scheduled ctx (planBlock ctx o k (v.map ctx.symbolOf) s).errors := by
  match s with
  | ⟨id, span, stmts⟩ =>
    rw [planBlock]
    refine planEnd_scheduled ?_
    intro after hafter
    refine planStmts_scheduled (s := stmts) ?_ (hentry _) hfresh.enter rfl
    -- behind the statements stands only cleanup
    rw [any_eq_false]
    intro s hs
    have hcleanup := hafter s hs
    cases s with
    | cleanup _ => simp [Stmt.isReturn]
    | _ => contradiction

/-- The statements of a scope are planned in their places. -/
theorem planStmts_scheduled {outer : Point} {head : ScopeHead} {before rest : List Stmt}
    {t : ScopeCleanup} {s : List Stmt} (hreturn : rest.any Stmt.isReturn = false)
    (htracks : Tracks ctx ⟨head, before, (planStmts ctx t s).value ++ rest⟩ outer t)
    (hfresh : Fresh ctx (⟨head, before, (planStmts ctx t s).value ++ rest⟩ :: outer)
      (declsOfStmts s)) (hbefore : trailingCleanup before = []) :
    PlannedWell ctx outer head before rest (planStmts ctx t s) := by
  match s with
  | [] =>
    refine ⟨?_, ?_, ?_⟩
    · simpa [planStmts] using htracks
    · simpa [planStmts] using hbefore
    · intro p hp
      contradiction
  | s :: ss =>
    rw [planStmts] at htracks hfresh ⊢
    generalize hfirst : planStmt ctx t (ss.any Stmt.isReturn) s = first
      at htracks hfresh ⊢
    generalize hothers : planStmts ctx first.orders ss = others at htracks hfresh ⊢
    dsimp only at htracks hfresh ⊢
    rw [append_assoc] at htracks hfresh
    have hreturnFollows : (others.value ++ rest).any Stmt.isReturn = ss.any Stmt.isReturn := by
      rw [any_append, hreturn, ← hothers, any_isReturn_planStmts, Bool.or_false]
    have hdecls : declsOfStmts first.value = s.decls := by rw [← hfirst, decls_planStmt]
    have hhead : PlannedWell ctx outer head before (others.value ++ rest) first := by
      subst hfirst
      exact planStmt_scheduled (s := s) hreturnFollows htracks hfresh.left hbefore
    have htail : PlannedWell ctx outer head (before ++ first.value) rest others := by
      rw [declsOfStmts, ← hdecls] at hfresh
      subst hothers
      exact planStmts_scheduled (s := ss) hreturn hhead.tracks hfresh.advance_append
        hhead.trailing
    refine ⟨?_, ?_, ?_⟩
    · rw [← append_assoc]
      exact htail.tracks
    · rw [← append_assoc]
      exact htail.trailing
    · intro p hp
      rw [Point.pointsAmong_append, mem_append] at hp
      rcases hp with hp | hp
      · exact (hhead.scheduled p hp).of_errors fun hnone => (append_eq_nil_iff.1 hnone).1
      · exact (htail.scheduled p hp).of_errors fun hnone => (append_eq_nil_iff.1 hnone).2

end

/-- A body whose variables are distinct and known has its cleanup where it should be. -/
theorem planBody_scheduled {body : Block} (hnodup : (declsOfBlock none body).Nodup)
    (hknows : ∀ x ∈ declsOfBlock none body, ctx.Knows x) :
    ∀ p ∈ Block.points (planBody ctx body).value,
      p.Scheduled ctx (planBody ctx body).errors := by
  have hentry : ∀ rest, Tracks ctx ⟨⟨body.id, body.span, .body, none⟩, [], rest⟩ []
      (entryOrders none body.id body.span .body none) := by
    intro rest
    exact ⟨rfl, rfl, ⟨rfl, rfl, rfl⟩, fun _ => rfl, nodup_nil, fun x hx => by contradiction⟩
  have hfresh : Fresh ctx [] (declsOfBlock none body) :=
    ⟨hnodup, hknows, fun x _ hx => by contradiction, fun x _ hx => by contradiction⟩
  exact (planBlock_scheduled (v := none) hentry hfresh).2

end Bodies

end DeferLang
