import DeferLang.Proofs.DeferredCalls
import DeferLang.Proofs.LexicalScoping

/-!
# What the arguments of a deferred call refer to

A cleanup statement executes a deferred call with the arguments that stand in
its `defer`.  Every variable in them was visible at the `defer`, and so was the
variable to which the call is attached, which is still visible at the cleanup.

The others need not be.  A `defer` in a plain block can be attached to a variable
around the block; the call is then executed behind the end of the block, where
the variables of the block are gone.
-/

namespace DeferLang

open List

namespace Point

/-- A variable that is visible at the `defer` behind `q` is out of scope at `p`: its scope is a
plain block around the `defer` that is no longer open at `p`, and that lies in the scope of
`owner`. -/
def OutOfScope (q p : Point) (owner x : LocalVar) : Prop :=
  ∃ inner sc outer, q = inner ++ sc :: outer ∧ sc.head.kind = .block ∧
    sc.head.block ∉ p.blocks ∧ x ∈ sc.own ∧ owner ∈ visible outer

theorem exists_own_of_visible {p : Point} {x : LocalVar} (hx : x ∈ p.visible) :
    ∃ front sc outer, p = front ++ sc :: outer ∧ x ∈ sc.own := by
  induction p with
  | nil => contradiction
  | cons sc outer ih =>
    rw [visible, mem_append] at hx
    rcases hx with hx | hx
    · obtain ⟨front, sc', outer', rfl, hown⟩ := ih hx
      exact ⟨sc :: front, sc', outer', rfl, hown⟩
    · exact ⟨[], sc, outer, rfl, hx⟩

section Scopes

variable {body : Block} (hids : (idsOfBlock body).Nodup) {p q : Point}

include hids

/-- A block of a statement that stands before a point in an open scope is closed there. -/
theorem In.not_mem_blocks_of_before {front outer : Point} {sc : OpenScope}
    {earlier later : List Stmt} {s : Stmt} (hp : In body (front ++ sc :: outer))
    (hbefore : sc.before = earlier ++ s :: later) {i : NodeId} (hi : i ∈ s.ids) :
    i ∉ Point.blocks (front ++ sc :: outer) := by
  have hnodup := (hp.nodup_passed hids).of_append_left
  rw [passed_append, passed_of_before hbefore sc.rest] at hnodup
  intro hblocks
  rw [blocks, map_append, mem_append] at hblocks
  rcases hblocks with hfront | houter
  · -- the blocks further inside were entered behind the statement
    have hpassed := (blocks_sublist_passed front).subset (mem_reverse.2 hfront)
    refine disjoint_of_nodup_append hnodup ?_ hpassed
    exact mem_append_right _ (mem_append_left _ hi)
  · -- the others were entered in front of it
    have hpassed := (blocks_sublist_passed (⟨sc.head, earlier, sc.rest⟩ :: outer)).subset
      (mem_reverse.2 houter)
    refine disjoint_of_nodup_append hnodup.of_append_left hpassed ?_
    exact mem_append_left _ hi

/-- Where a `defer` counts and its variable is visible, what was visible at the `defer` is
visible too, or its block is closed. -/
theorem In.visible_or_outOfScope (hp : p.In body) (hq : q ∈ p.defers) {owner x : LocalVar}
    (howner : owner ∈ q.visible) (howner' : owner ∈ p.visible) (hx : x ∈ q.visible) :
    x ∈ p.visible ∨ OutOfScope q p owner x := by
  obtain ⟨front, sc, outer, earlier, s, later, rfl, hbefore, hbelow, hhere⟩ :=
    hp.visible_of_mem_defers hids hq howner howner'
  obtain ⟨inner, rfl, hinner⟩ := hbelow.exists_append
  rw [visible_append, mem_append] at hx
  rcases hx with hx | hx
  · -- declared outside the plain blocks around the `defer`
    left
    rw [visible_append, mem_append, visible, mem_append]
    rw [visible, mem_append] at hx
    left
    refine hx.imp_right fun hx => ?_
    rw [OpenScope.own, hbefore, filterMap_append, ← append_assoc]
    exact mem_append_left _ hx
  · -- declared in one of them, which was closed before the point
    right
    obtain ⟨inside, sc', outside, rfl, hown⟩ := exists_own_of_visible hx
    have hmem : sc' ∈ inside ++ sc' :: outside := by simp
    refine ⟨inside, sc', outside ++ ⟨sc.head, earlier, s :: (later ++ sc.rest)⟩ :: outer,
      by simp, hinner sc' hmem, ?_, hown, ?_⟩
    · refine hp.not_mem_blocks_of_before hids hbefore ?_
      exact hbelow.blocks_subset rfl _ (mem_map_of_mem hmem)
    · rw [visible_append]
      exact mem_append_left _ hhere

end Scopes

end Point

/-- An action on a variable that is not its destruction comes from a hit. -/
theorem mem_hits_of_mem_actionsOn {hits : Hits} {x : LocalVar} {action : CleanupAction}
    (h : action ∈ actionsOn hits x) (haction : action ≠ .destructor) : (x, action) ∈ hits := by
  have hfound : action ∈ hits.filterMap (actionOn? x) := by
    unfold actionsOn at h
    split at h
    · exact absurd (mem_singleton.1 h) haction
    · exact h
  obtain ⟨⟨y, other⟩, hmem, heq⟩ := mem_filterMap.1 hfound
  simp only [actionOn?, Option.ite_none_right_eq_some, Option.some.injEq] at heq
  obtain ⟨rfl, rfl⟩ := heq
  exact hmem

/-- A hit with a deferred call comes from its `defer`, and hits the variable to which the call
is attached. -/
theorem exists_deferral_of_mem_hits {ctx : Context} {p : Point} {x : LocalVar} {call : Call}
    (h : (x, .deferred call) ∈ p.hits ctx) :
    ∃ q ∈ p.defers, ∃ d, q.deferral? ctx = some d ∧ d.call = call ∧ d.owner = x := by
  obtain ⟨q, hq, hhit⟩ := mem_flatMap.1 h
  obtain ⟨_, _, _, _, _, _, _, _, _, _, span, other, hnext⟩ := Point.exists_below_of_mem_defers hq
  obtain rfl : other = call := by
    by_contra hne
    have hnone : (q.hitsHere ctx).filter (isCall call ·.2) = [] :=
      hitsHere_filter_other hnext hne
    rw [filter_eq_nil_iff] at hnone
    exact hnone _ hhit (by simp [isCall])
  obtain ⟨d, hd, rfl⟩ := exists_deferral hnext (ne_nil_of_mem hhit)
  have hself := hitsHere_filter_self hd (ne_nil_of_mem hhit)
  have hmem : (x, .deferred d.call) ∈ (q.hitsHere ctx).filter (isCall d.call ·.2) :=
    mem_filter.2 ⟨hhit, by simp [isCall]⟩
  rw [hself, mem_singleton, Prod.mk.injEq] at hmem
  exact ⟨q, hq, d, hd, rfl, hmem.1.symm⟩

/-- A cleanup statement with a deferred call executes it for the variable to which it is
attached, and that variable is visible. -/
theorem exists_deferral_of_cleanup {ctx : Context} {errors : List CleanupError} {p : Point}
    (hp : p.Scheduled ctx errors) {item : Cleanup} {call : Call}
    (hnext : p.next? = some (.cleanup item)) (haction : item.action = .deferred call) :
    ∃ q ∈ p.defers, ∃ d, q.deferral? ctx = some d ∧ d.call = call ∧
      item.decl = d.owner.decl ∧ d.owner ∈ p.visible := by
  obtain ⟨kind, exit, later, hsequence⟩ := hp.cleanup item hnext
  obtain ⟨order, -, horder, heq⟩ := p.exitCleanup_eq ctx kind exit
  have hmem : item ∈ cleanupOf (p.hits ctx) exit order := by
    rw [← heq, ← hsequence]
    simp
  obtain ⟨x, hx, hitem⟩ := mem_flatMap.1 hmem
  obtain ⟨action, hactions, rfl⟩ := mem_map.1 hitem
  -- a destruction has no call, so the action was deferred
  obtain rfl : action = .deferred call := haction
  have hhit := mem_hits_of_mem_actionsOn hactions (by simp)
  obtain ⟨q, hq, d, hd, hcall, rfl⟩ := exists_deferral_of_mem_hits hhit
  exact ⟨q, hq, d, hd, hcall, rfl, p.leaving_subset_visible kind _ ((horder _).1 hx)⟩

/-- In a scheduled source every variable that is read stands for a variable of its name that is
visible where it is read. -/
theorem Source.names_planned (s : Source) (h : s.diagnostics.hasBlocking = false) {body : Block}
    (hbody : body ∈ s.planned.1.program.bodies) {q : Point} (hq : q ∈ body.points)
    {v : NodeId × Ident} (hv : v ∈ q.vars) :
    ∃ x ∈ q.visible, x.name = v.2.name ∧ s.context.Names v.1 x := by
  rcases names_check s.nodup_ids s.bareBlock_planned hbody hq hv with hnames | herror
  · exact hnames
  · -- an undeclared variable is an error
    have hmem : TypingError.toDiagnostic s ⟨.undeclared v.2.name, v.2.span⟩ ∈ s.diagnostics :=
      mem_append_right _ (mem_map_of_mem herror)
    rw [Diagnostics.hasBlocking, any_eq_false] at h
    exact absurd rfl (h _ hmem)

/-- In a source that is scheduled without errors, a cleanup statement executes a deferred call for
a visible variable.  Every variable in the arguments of the call stands for one that was visible
at the `defer`, and that is visible at the cleanup unless its block is closed. -/
theorem deferred_arguments_visible_or_outOfScope (s : Source)
    (h : (s.program.scheduleCleanup s.context s.diagnostics).2 = []) :
    ∃ result, s.program.scheduleCleanup s.context s.diagnostics = (some result, []) ∧
      ∀ body ∈ result.program.bodies, ∀ p ∈ body.points, ∀ item call,
        p.next? = some (.cleanup item) → item.action = .deferred call →
          ∃ q ∈ p.defers, ∃ d, q.deferral? s.context = some d ∧ d.call = call ∧
            item.decl = d.owner.decl ∧ d.owner ∈ p.visible ∧
            ∀ v ∈ call.vars, ∃ x ∈ q.visible, x.name = v.2.name ∧ s.context.Names v.1 x ∧
              (x ∈ p.visible ∨ q.OutOfScope p d.owner x) := by
  obtain ⟨hschedule, -⟩ := s.scheduleCleanup_eq_of_no_errors h
  refine ⟨_, hschedule, ?_⟩
  intro body hbody p hp item call hnext haction
  obtain ⟨q, hq, d, hd, rfl, hdecl, howner⟩ :=
    exists_deferral_of_cleanup (s.scheduled_planned hbody hp) hnext haction
  refine ⟨q, hq, d, hd, rfl, hdecl, howner, fun v hv => ?_⟩
  obtain ⟨span, hdefer⟩ := next_of_deferral hd
  have hin := Point.mem_points_iff.1 hp
  have hread : v ∈ q.vars := by
    rw [Point.vars_eq hdefer]
    exact hv
  obtain ⟨x, hx, hname, hnames⟩ := s.names_planned (s.hasBlocking_of_no_errors h) hbody
    (Point.mem_points_iff.2 (hin.of_mem_defers hq)) hread
  exact ⟨x, hx, hname, hnames,
    hin.visible_or_outOfScope (s.nodup_ids_planned hbody) hq (owner_visible hd) howner hx⟩

/-- A source in which a plain block defers a call with a variable of its own on one around it. -/
def deferAcross : Source :=
  .ofText 0 "across"
    "fn main() \x7b int x = 1; \x7b int y = 2; defer f(x, y); \x7d \x7d".toList

theorem deferred_arguments_visible_or_outOfScope_deferAcross :
    (deferAcross.program.scheduleCleanup deferAcross.context deferAcross.diagnostics).2 = [] ∧
      ∃ result, deferAcross.program.scheduleCleanup deferAcross.context
          deferAcross.diagnostics = (some result, []) ∧
        ∀ body ∈ result.program.bodies, ∀ p ∈ body.points, ∀ item call,
          p.next? = some (.cleanup item) → item.action = .deferred call →
            ∃ q ∈ p.defers, ∃ d, q.deferral? deferAcross.context = some d ∧ d.call = call ∧
              item.decl = d.owner.decl ∧ d.owner ∈ p.visible ∧
              ∀ v ∈ call.vars, ∃ x ∈ q.visible, x.name = v.2.name ∧
                deferAcross.context.Names v.1 x ∧
                  (x ∈ p.visible ∨ q.OutOfScope p d.owner x) := by
  have hnone : (deferAcross.program.scheduleCleanup deferAcross.context
      deferAcross.diagnostics).2 = [] := by decide +kernel
  exact ⟨hnone, deferred_arguments_visible_or_outOfScope deferAcross hnone⟩

/-- Without any error, a deferred call may be executed with a variable that is not visible any
more. -/
theorem deferred_argument_not_visible_deferAcross :
    ∃ result, deferAcross.program.scheduleCleanup deferAcross.context
        deferAcross.diagnostics = (some result, []) ∧
      ∃ body ∈ result.program.bodies, ∃ p ∈ body.points, ∃ item call,
        p.next? = some (.cleanup item) ∧ item.action = .deferred call ∧
          ∃ v ∈ call.vars, ∀ x ∈ p.visible, ¬deferAcross.context.Names v.1 x := by
  have hnone : (deferAcross.program.scheduleCleanup deferAcross.context
      deferAcross.diagnostics).2 = [] := by decide +kernel
  have hgone : ∃ body ∈ deferAcross.planned.1.program.bodies, ∃ p ∈ body.points,
      ∃ item ∈ (p.next?.bind Stmt.cleanup?).toList, ∃ q ∈ p.defers,
        ∃ d ∈ (q.deferral? deferAcross.context).toList, item.action = .deferred d.call ∧
          d.call.vars.any fun v => p.visible.all fun x =>
            deferAcross.context.resolve? v.1 ≠ deferAcross.context.declSymbol? x.decl := by
    decide +kernel
  obtain ⟨body, hbody, p, hp, item, hitem, q, -, d, -, haction, hvars⟩ := hgone
  obtain ⟨v, hv, hall⟩ := List.any_eq_true.1 hvars
  refine ⟨_, (deferAcross.scheduleCleanup_eq_of_no_errors hnone).1, body, hbody, p, hp, item,
    d.call, ?_, haction, v, hv, ?_⟩
  · obtain ⟨stmt, hnext, hcleanup⟩ := Option.bind_eq_some_iff.1 (Option.mem_toList.1 hitem)
    rw [hnext, Stmt.eq_cleanup_of_cleanup? hcleanup]
  · rintro x hx ⟨symbol, hresolve, hsymbol⟩
    exact of_decide_eq_true (List.all_eq_true.1 hall x hx) (hresolve.trans hsymbol.symm)

end DeferLang
