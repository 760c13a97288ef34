import DeferLang.Proofs.Deferrals
import DeferLang.Proofs.Lifetimes

/-!
# What becomes of a deferred call

A deferred call is attached to the first variable that it names.  On every path
it is executed once after its `defer`, when that variable is cleaned up: at the
end of its scope, or at a `return` before.

There is one exception.  The body of an `if`, `else`, `while` or `for` keeps to
itself what the plain blocks in it defer.  If the variable lives outside such a
body, and control falls off its end, the call is never executed.

What is owed to one `defer` along a path is followed by `Owed.run`.
-/

namespace DeferLang

open List

variable {b : Block} {call : Call} {e : Event} {events : List Event} {loopVar : Option LocalVar}
  {kind : ScopeKind} {span : Span} {s : Stmt}

/-- Whether a cleanup statement executes a deferred call. -/
def Event.executes (call : Call) : Event → Bool
  | .cleaned item => item.action = .deferred call
  | _ => false

/-- A `defer`: its call, the variable to which it is attached with the block of its scope, and
the block at whose end the call is dropped, if there is one. -/
structure Deferral where
  call : Call
  owner : LocalVar
  scope : Option NodeId
  dropper : Option NodeId

namespace Deferral

/-- Whether control falls off the end of the block where the call is dropped. -/
def drops (d : Deferral) (e : Event) : Bool :=
  d.dropper.any fun block => e = .left block .fallOff

theorem drops_eq_true_iff {d : Deferral} :
    d.drops e = true ↔ ∃ block, d.dropper = some block ∧ e = .left block .fallOff := by
  rw [drops, Option.any_eq_true]
  simp only [decide_eq_true_eq]

/-- While the call waits, it is not executed, nor is its `defer`, and it is not dropped. -/
def Waits (d : Deferral) (events : List Event) : Prop :=
  ∀ e ∈ events, e ≠ .deferred d.call ∧ e.executes d.call = false ∧ d.drops e = false

/-- The call is not executed before its `defer` is executed again. -/
def IsOver (d : Deferral) (events : List Event) : Prop :=
  ∀ e ∈ events.takeWhile (· ≠ .deferred d.call), e.executes d.call = false

/-- Behind a `defer`, its call is executed once: among the cleanup that ends the scope of its
variable, or among that of a `return`. -/
def ExecutedOnce (d : Deferral) (later : List Event) : Prop :=
  ∃ waiting item others block how rest,
    later = waiting ++ .cleaned item :: (others ++ .left block how :: rest) ∧
      d.Waits waiting ∧ item.decl = d.owner.decl ∧ item.action = .deferred d.call ∧
      (∀ e ∈ others, ∃ other, e = .cleaned other ∧ other.action ≠ .deferred d.call) ∧
      (how = .ret ∨ d.scope = some block) ∧ d.IsOver rest

/-- Behind a `defer`, its call is dropped. -/
def Dropped (d : Deferral) (later : List Event) : Prop :=
  ∃ waiting block rest, later = waiting ++ .left block .fallOff :: rest ∧
    d.Waits waiting ∧ d.dropper = some block ∧ d.IsOver rest

end Deferral

/-- What is owed to a `defer`: nothing, the execution of its call, or the rest of the cleanup in
which the call was executed. -/
inductive Owed where
  | nothing
  | call
  | exit

namespace Owed

variable {events : List Event}

/-- What an event does to what is owed to a `defer`. -/
def step (d : Deferral) : Owed → Event → Option Owed
  | .nothing, e =>
    if e = .deferred d.call then some .call
    else if e.executes d.call then none
    else some .nothing
  | .call, e =>
    if e = .deferred d.call then none
    else if e.executes d.call then
      if e.cleans d.owner.decl then some .exit else none
    else if d.drops e then some .nothing
    else some .call
  | .exit, .cleaned item => if item.action = .deferred d.call then none else some .exit
  | .exit, .left block how =>
    if how = .ret ∨ d.scope = some block then some .nothing else none
  | .exit, _ => none

/-- What events do to what is owed to a `defer`. -/
def run (d : Deferral) (o : Owed) (events : List Event) : Option Owed :=
  events.foldlM (step d) o

variable {d : Deferral}

theorem run_cons (o : Owed) (e : Event) (es : List Event) :
    run d o (e :: es) = (o.step d e).bind fun o' => run d o' es :=
  foldlM_cons

theorem run_append (o : Owed) (xs ys : List Event) :
    run d o (xs ++ ys) = (run d o xs).bind fun o' => run d o' ys :=
  foldlM_append

theorem run_concat (o : Owed) (es : List Event) (e : Event) :
    run d o (es ++ [e]) = (run d o es).bind fun o' => o'.step d e :=
  foldlM_concat _ o es e

theorem isOver_of_run (h : run d .nothing events = some .nothing) : d.IsOver events := by
  induction events with
  | nil => simp [Deferral.IsOver]
  | cons e es ih =>
    by_cases hagain : e = .deferred d.call
    · simp [Deferral.IsOver, hagain]
    · by_cases hexecutes : e.executes d.call = true
      · simp [run_cons, step, hagain, hexecutes] at h
      · have hlater : d.IsOver es := ih (by simpa [run_cons, step, hagain, hexecutes] using h)
        have hfirst : e.executes d.call = false := eq_false_of_ne_true hexecutes
        intro e' he'
        rw [takeWhile_cons_of_pos (by simpa using hagain), mem_cons] at he'
        rcases he' with rfl | he'
        · exact hfirst
        · exact hlater e' he'

theorem shape_of_exit (h : run d .exit events = some .nothing) :
    ∃ others block how rest, events = others ++ .left block how :: rest ∧
      (∀ e ∈ others, ∃ other, e = .cleaned other ∧ other.action ≠ .deferred d.call) ∧
      (how = .ret ∨ d.scope = some block) ∧ d.IsOver rest := by
  induction events with
  | nil => simp [run] at h
  | cons e es ih =>
    rw [run_cons] at h
    obtain ⟨o, hstep, hes⟩ := Option.bind_eq_some_iff.1 h
    cases e with
    | cleaned item =>
      by_cases hitem : item.action = .deferred d.call
      · simp [step, hitem] at hstep
      · obtain rfl : o = .exit := by simpa [step, hitem, eq_comm] using hstep
        obtain ⟨others, block, how, rest, rfl, hothers, hhow, hover⟩ := ih hes
        refine ⟨.cleaned item :: others, block, how, rest, rfl, ?_, hhow, hover⟩
        exact forall_mem_cons.2 ⟨⟨item, rfl, hitem⟩, hothers⟩
    | left block how =>
      by_cases hhow : how = .ret ∨ d.scope = some block
      · obtain rfl : o = .nothing := by simpa [step, hhow, eq_comm] using hstep
        exact ⟨[], block, how, es, rfl, by simp, hhow, isOver_of_run hes⟩
      · simp [step, hhow] at hstep
    | _ => simp [step] at hstep

theorem shape_of_call (h : run d .call events = some .nothing) :
    d.ExecutedOnce events ∨ d.Dropped events := by
  induction events with
  | nil => simp [run] at h
  | cons e es ih =>
    rw [run_cons] at h
    obtain ⟨o, hstep, hes⟩ := Option.bind_eq_some_iff.1 h
    by_cases hagain : e = .deferred d.call
    · simp [step, hagain] at hstep
    by_cases hexecutes : e.executes d.call = true
    · -- here the call is executed
      rw [step, if_neg hagain, if_pos hexecutes] at hstep
      have hdecl : e.cleans d.owner.decl = true := by
        by_contra hother
        simp [hother] at hstep
      obtain rfl : .exit = o := by simpa [hdecl] using hstep
      obtain ⟨item, rfl⟩ : ∃ item, e = .cleaned item := by
        cases e <;> simp_all [Event.executes]
      obtain ⟨others, block, how, rest, rfl, hothers, hhow, hover⟩ := shape_of_exit hes
      exact .inl ⟨[], item, others, block, how, rest, rfl, by simp [Deferral.Waits],
        by simpa [Event.cleans] using hdecl, by simpa [Event.executes] using hexecutes,
        hothers, hhow, hover⟩
    by_cases hdrops : d.drops e = true
    · obtain rfl : o = .nothing := by simpa [step, hagain, hexecutes, hdrops, eq_comm] using hstep
      obtain ⟨block, hblock, rfl⟩ := Deferral.drops_eq_true_iff.1 hdrops
      exact .inr ⟨[], block, es, rfl, by simp [Deferral.Waits], hblock, isOver_of_run hes⟩
    · obtain rfl : o = .call := by simpa [step, hagain, hexecutes, hdrops, eq_comm] using hstep
      have hfirst : e ≠ .deferred d.call ∧ e.executes d.call = false ∧ d.drops e = false :=
        ⟨hagain, eq_false_of_ne_true hexecutes, eq_false_of_ne_true hdrops⟩
      rcases ih hes with honce | hdropped
      · obtain ⟨waiting, item, others, block, how, rest, rfl, hwaiting, hrest⟩ := honce
        refine .inl ⟨e :: waiting, item, others, block, how, rest, rfl, ?_, hrest⟩
        exact forall_mem_cons.2 ⟨hfirst, hwaiting⟩
      · obtain ⟨waiting, block, rest, rfl, hwaiting, hrest⟩ := hdropped
        refine .inr ⟨e :: waiting, block, rest, rfl, ?_, hrest⟩
        exact forall_mem_cons.2 ⟨hfirst, hwaiting⟩

/-- If nothing is owed in the end, every execution of the `defer` is answered. -/
theorem answered_of_run (h : run d .nothing events = some .nothing) {earlier later : List Event}
    (hevents : events = earlier ++ .deferred d.call :: later) :
    d.ExecutedOnce later ∨ d.Dropped later := by
  subst hevents
  obtain ⟨o, -, ho⟩ := Option.bind_eq_some_iff.1 (run_append .nothing earlier _ ▸ h)
  rw [run_cons] at ho
  obtain ⟨o', hstep, hlater⟩ := Option.bind_eq_some_iff.1 ho
  obtain rfl : o' = .call := by
    cases o <;> simp [step] at hstep
    exact hstep.symm
  exact shape_of_call hlater

end Owed

namespace Point

/-- The innermost scope that may not run and that lies inside the scope of a variable. -/
def keeper? (owner : LocalVar) : Point → Option NodeId
  | [] => none
  | sc :: outer =>
    if owner ∈ sc.own then none
    else if sc.head.kind.isConditional then some sc.head.block
    else keeper? owner outer

/-- The block at whose end the call of a `defer` is dropped.  A `defer` that stands directly in a
scope that may not run is never dropped. -/
def dropper? (owner : LocalVar) : Point → Option NodeId
  | [] => none
  | sc :: outer => if sc.head.kind.isConditional then none else keeper? owner (sc :: outer)

/-- The `defer` behind a point. -/
def deferral? (ctx : Context) (p : Point) : Option Deferral :=
  match p.next?, p.targets ctx with
  | some (.defer _ call), owner :: _ =>
    some ⟨call, owner, p.scopeOf? owner.decl, p.dropper? owner⟩
  | _, _ => none

theorem keeper?_append {owner : LocalVar} {inner here : Point}
    (hkind : ∀ sc ∈ inner, sc.head.kind = .block) (howner : ∀ sc ∈ inner, owner ∉ sc.own) :
    keeper? owner (inner ++ here) = keeper? owner here := by
  induction inner with
  | nil => rfl
  | cons sc inner ih =>
    have hplain : sc.head.kind.isConditional = false := by
      rw [hkind sc mem_cons_self]
      rfl
    rw [cons_append, keeper?, if_neg (howner sc mem_cons_self), hplain]
    exact ih (fun sc' h => hkind sc' (mem_cons_of_mem _ h))
      (fun sc' h => howner sc' (mem_cons_of_mem _ h))

/-- A call is only dropped at the end of a scope around it that may not run. -/
theorem exists_of_dropper? {owner : LocalVar} {p : Point} {block : NodeId}
    (h : p.dropper? owner = some block) :
    ∃ sc ∈ p, sc.head.block = block ∧ sc.head.kind.isConditional = true := by
  have hkeeper : ∀ {p : Point}, p.keeper? owner = some block →
      ∃ sc ∈ p, sc.head.block = block ∧ sc.head.kind.isConditional = true := by
    intro p hp
    induction p with
    | nil => contradiction
    | cons sc outer ih =>
      rw [keeper?] at hp
      split at hp
      · contradiction
      · split at hp
        · rename_i hconditional
          exact ⟨sc, mem_cons_self, Option.some.inj hp, hconditional⟩
        · obtain ⟨sc', hsc', h⟩ := ih hp
          exact ⟨sc', mem_cons_of_mem _ hsc', h⟩
  cases p with
  | nil => contradiction
  | cons sc outer =>
    rw [dropper?] at h
    split at h
    · contradiction
    · exact hkeeper h

end Point

section Hits

variable {ctx : Context} {q : Point} {d : Deferral}

theorem next_of_deferral (h : q.deferral? ctx = some d) :
    ∃ span, q.next? = some (.defer span d.call) := by
  unfold Point.deferral? at h
  split at h
  · rename_i span call _ _ hnext _
    obtain rfl := Option.some.inj h
    exact ⟨span, hnext⟩
  · contradiction

theorem targets_of_deferral (h : q.deferral? ctx = some d) :
    (∃ others, q.targets ctx = d.owner :: others) ∧ d.scope = q.scopeOf? d.owner.decl ∧
      d.dropper = q.dropper? d.owner := by
  unfold Point.deferral? at h
  split at h
  · rename_i span call owner others _ htargets
    obtain rfl := Option.some.inj h
    exact ⟨⟨others, htargets⟩, rfl, rfl⟩
  · contradiction

/-- A `defer` that takes effect is attached to a variable. -/
theorem exists_deferral (hnext : q.next? = some (.defer span call))
    (hhits : q.hitsHere ctx ≠ []) : ∃ d, q.deferral? ctx = some d ∧ d.call = call := by
  have htargets : q.targets ctx = ctx.targets q.visible call := by rw [Point.targets, hnext]
  cases hvars : ctx.targets q.visible call with
  | nil =>
    rw [Point.hitsHere, hnext] at hhits
    simp [hvars, deferHits] at hhits
  | cons owner others =>
    refine ⟨⟨call, owner, q.scopeOf? owner.decl, q.dropper? owner⟩, ?_, rfl⟩
    simp only [Point.deferral?, hnext, htargets, hvars]

theorem owner_visible (h : q.deferral? ctx = some d) : d.owner ∈ q.visible := by
  obtain ⟨span, hnext⟩ := next_of_deferral h
  obtain ⟨⟨others, htargets⟩, -⟩ := targets_of_deferral h
  rw [Point.targets, hnext] at htargets
  exact mem_visible_of_mem_targets (htargets ▸ mem_cons_self)

/-- Whether an action executes a call. -/
def isCall (call : Call) (action : CleanupAction) : Bool :=
  action = .deferred call

/-- A `defer` that takes effect hits its variable with its call, and nothing else with it. -/
theorem hitsHere_filter_self (h : q.deferral? ctx = some d) (hits : q.hitsHere ctx ≠ []) :
    (q.hitsHere ctx).filter (isCall d.call ·.2) = [(d.owner, .deferred d.call)] := by
  obtain ⟨span, hnext⟩ := next_of_deferral h
  obtain ⟨⟨others, htargets⟩, -⟩ := targets_of_deferral h
  rw [Point.targets, hnext] at htargets
  unfold Point.hitsHere at hits ⊢
  rw [hnext] at hits ⊢
  simp only [htargets] at hits ⊢
  by_cases hvalid : q.isValidDefer ctx = true
  · rw [if_pos hvalid, deferHits]
    simp [isCall, filter_eq_nil_iff]
  · rw [if_neg hvalid] at hits
    contradiction

theorem hitsHere_filter_other {p : Point} {other : Call}
    (hnext : p.next? = some (.defer span other)) (hne : other ≠ call) :
    (p.hitsHere ctx).filter (isCall call ·.2) = [] := by
  rw [filter_eq_nil_iff]
  intro hit hhit
  rw [Point.hitsHere, hnext] at hhit
  dsimp only at hhit
  split at hhit
  · cases htargets : ctx.targets p.visible other with
    | nil =>
      rw [htargets] at hhit
      contradiction
    | cons x others =>
      rw [htargets, deferHits, mem_cons, mem_map] at hhit
      rcases hhit with rfl | ⟨y, -, rfl⟩
      · simpa [isCall] using hne
      · simp [isCall]
  · contradiction

/-- A `defer` that takes effect in a scope that may not run has a `return` behind it, or its
variable belongs to the scope. -/
theorem return_or_own_of_hits {sc : OpenScope} {outer : Point}
    (hd : Point.deferral? ctx (sc :: outer) = some d)
    (hhits : Point.hitsHere ctx (sc :: outer) ≠ []) (hkind : sc.head.kind.isConditional = true) :
    sc.rest.tail.any Stmt.isReturn = true ∨ d.owner ∈ sc.own := by
  have hvalid : Point.isValidDefer ctx (sc :: outer) = true := by
    by_contra hnot
    unfold Point.hitsHere at hhits
    split at hhits
    · exact hhits (if_neg hnot)
    · exact hhits rfl
  obtain ⟨⟨others, htargets⟩, -⟩ := targets_of_deferral hd
  rw [Point.isValidDefer, htargets, hkind] at hvalid
  simp only [Bool.not_true, Bool.false_or, Bool.or_eq_true, all_cons, Bool.and_eq_true,
    decide_eq_true_eq] at hvalid
  exact hvalid.imp_right And.left

/-- What executes a call are the hits with it. -/
theorem actionsOn_filter (hits : Hits) (x : LocalVar) (call : Call) :
    (actionsOn hits x).filter (isCall call) =
      (hits.filter (isCall call ·.2)).filterMap (actionOn? x) := by
  have hfound : (hits.filterMap (actionOn? x)).filter (isCall call) =
      (hits.filter (isCall call ·.2)).filterMap (actionOn? x) := by
    induction hits with
    | nil => rfl
    | cons hit hits ih =>
      by_cases hy : hit.1 = x <;> by_cases haction : isCall call hit.2 = true <;>
        simp [actionOn?, hy, haction, ih]
  rw [← hfound]
  unfold actionsOn
  cases hits.filterMap (actionOn? x) with
  | nil | cons action found => rfl

/-- The statements of a cleanup sequence that execute a call. -/
theorem cleanupOf_filter (hits : Hits) (exit : Span) (call : Call) (order : List LocalVar) :
    (cleanupOf hits exit order).filter (isCall call ·.action) =
      order.flatMap fun x => ((actionsOn hits x).filter (isCall call)).map fun action =>
        ⟨exit, ⟨x.name, exit⟩, x.decl, action⟩ := by
  rw [cleanupOf, filter_flatMap]
  congr 1
  funext x
  rw [filter_map]
  rfl

theorem flatMap_ite_eq {β : Type} {order : List LocalVar} (hnodup : order.Nodup) {x : LocalVar}
    (hx : x ∈ order) (b : β) : (order.flatMap fun y => if x = y then [b] else []) = [b] := by
  induction order with
  | nil => contradiction
  | cons y ys ih =>
    obtain ⟨hfresh, hnodup⟩ := nodup_cons.1 hnodup
    by_cases hxy : x = y
    · have hnone : (ys.flatMap fun z => if x = z then [b] else []) = [] := by
        rw [flatMap_eq_nil_iff]
        intro z hz
        have hne : x ≠ z := by
          rintro rfl
          exact hfresh (hxy ▸ hz)
        exact if_neg hne
      rw [flatMap_cons, if_pos hxy, hnone]
      rfl
    · rw [flatMap_cons, if_neg hxy]
      exact ih hnodup ((mem_cons.1 hx).resolve_left hxy)

variable {body : Block} (hids : (idsOfBlock body).Nodup) (hq : q.In body)
  (hd : q.deferral? ctx = some d) {p : Point} (hp : p.In body)

include hids hq hd hp

/-- Other `defer`s hit nothing with this call. -/
theorem hitsHere_filter_of_ne {other : Point} (hother : other ∈ p.defers) (hne : other ≠ q) :
    (other.hitsHere ctx).filter (isCall d.call ·.2) = [] := by
  obtain ⟨_, _, _, _, _, _, _, _, _, _, span, call, hnext⟩ :=
    Point.exists_below_of_mem_defers hother
  refine hitsHere_filter_other hnext fun hcall => hne ?_
  -- with the same call it would be the same `defer`
  obtain ⟨span', hnext'⟩ := next_of_deferral hd
  have hid := Point.deferId?_eq_some hnext'
  have hid' := Point.deferId?_eq_some hnext
  rw [hcall] at hid'
  exact (hp.of_mem_defers hother).eq_of_deferId? hids hq hid' hid

/-- Where a `defer` does not count, nothing is hit with its call. -/
theorem hits_filter_of_not_mem (hmem : q ∉ p.defers) :
    (p.hits ctx).filter (isCall d.call ·.2) = [] := by
  rw [Point.hits, filter_flatMap, flatMap_eq_nil_iff]
  intro other hother
  exact hitsHere_filter_of_ne hids hq hd hp hother fun heq => hmem (heq ▸ hother)

/-- Where a `defer` counts, its variable is hit with its call once, and nothing else. -/
theorem hits_filter_of_mem (hhits : q.hitsHere ctx ≠ []) (hmem : q ∈ p.defers) :
    (p.hits ctx).filter (isCall d.call ·.2) = [(d.owner, .deferred d.call)] := by
  have hnodup := hp.nodup_defers hids
  -- the `defer` counts once, and the others do not have its call
  obtain ⟨front, back, hsplit⟩ := append_of_mem hmem
  have hnone : ∀ part : List Point, (∀ other ∈ part, other ∈ p.defers) → q ∉ part →
      (part.flatMap fun other => (other.hitsHere ctx).filter (isCall d.call ·.2)) = [] := by
    intro part hpart hqpart
    rw [flatMap_eq_nil_iff]
    intro other hother
    exact hitsHere_filter_of_ne hids hq hd hp (hpart other hother) fun heq =>
      hqpart (heq ▸ hother)
  rw [hsplit, nodup_append, nodup_cons] at hnodup
  obtain ⟨-, ⟨hback, -⟩, hdisjoint⟩ := hnodup
  have hfront : q ∉ front := fun h => hdisjoint q h q mem_cons_self rfl
  rw [Point.hits, filter_flatMap, hsplit, flatMap_append, flatMap_cons,
    hnone front (fun _ h => by simp [hsplit, h]) hfront,
    hnone back (fun _ h => by simp [hsplit, h]) hback, hitsHere_filter_self hd hhits]
  rfl

/-- An exit where the `defer` counts, and that takes its variable out of scope, executes the
call once. -/
theorem exitCleanup_filter_of_mem (hhits : q.hitsHere ctx ≠ []) (kind : ExitKind)
    (hmem : q ∈ p.defers) (howner : d.owner ∈ p.leaving kind) (exit : Span) :
    (p.exitCleanup ctx kind exit).filter (isCall d.call ·.action) =
      [⟨exit, ⟨d.owner.name, exit⟩, d.owner.decl, .deferred d.call⟩] := by
  obtain ⟨order, hnodup, horder, heq⟩ := p.exitCleanup_eq ctx kind exit
  have hvisible : p.visible.Nodup := (hp.nodup_visible hids).of_map _
  rw [heq, cleanupOf_filter]
  simp only [actionsOn_filter, hits_filter_of_mem hids hq hd hp hhits hmem]
  refine Eq.trans ?_ (flatMap_ite_eq (hnodup hvisible) ((horder d.owner).2 howner) _)
  congr 1
  funext x
  by_cases hx : d.owner = x
  · subst hx
    simp [actionOn?]
  · simp [actionOn?, hx]

/-- No other exit executes the call. -/
theorem exitCleanup_filter_of_not (hhits : q.hitsHere ctx ≠ []) (kind : ExitKind)
    (hnot : q ∈ p.defers → d.owner ∈ p.leaving kind → False)
    (exit : Span) : (p.exitCleanup ctx kind exit).filter (isCall d.call ·.action) = [] := by
  obtain ⟨order, -, horder, heq⟩ := p.exitCleanup_eq ctx kind exit
  rw [heq, cleanupOf_filter, flatMap_eq_nil_iff]
  intro x hx
  rw [map_eq_nil_iff, actionsOn_filter]
  by_cases hmem : q ∈ p.defers
  · have hne : d.owner ≠ x := fun e => hnot hmem (e ▸ (horder x).1 hx)
    rw [hits_filter_of_mem hids hq hd hp hhits hmem]
    simp [actionOn?, hne]
  · rw [hits_filter_of_not_mem hids hq hd hp hmem]
    rfl

end Hits

/-- The call of a `defer` is still to be executed behind a point: the `defer` counts there, and
its variable is visible. -/
def Pending (d : Deferral) (q p : Point) : Prop :=
  q ∈ p.defers ∧ d.owner ∈ p.visible

/-- What is owed to a `defer` at a point. -/
def OwedAt (d : Deferral) (q p : Point) : Owed → Prop
  | .nothing => ¬Pending d q p
  | .call => Pending d q p ∧ p.cleanupRun.filter (isCall d.call ·.action) = []
  | .exit => Pending d q p ∧ p.cleanupRun.filter (isCall d.call ·.action) ≠ []

/-- What happened up to a point fits what is owed there. -/
def Owes (d : Deferral) (q : Point) (h : List Event) (p : Point) : Prop :=
  ∃ o, Owed.run d .nothing h = some o ∧ OwedAt d q p o

/-- After a `return` nothing is owed any more, once its first scope is left. -/
def Settled (d : Deferral) (h : List Event) (p : Point) : Prop :=
  Owed.run d .nothing h = some .nothing ∨ Owed.run d .nothing h = some .exit ∧ p ≠ []

section Steps

variable {ctx : Context} {q : Point} {d : Deferral} {h : List Event} {p p' : Point} {s : Stmt}

/-- Where no cleanup has run, the cleanup with the call is not going on. -/
theorem owes_same (hquiet : p.cleanupRun = []) (hquiet' : p'.cleanupRun = [])
    (hpending : Pending d q p' ↔ Pending d q p) : Owes d q h p' ↔ Owes d q h p := by
  refine exists_congr fun o => and_congr_right fun _ => ?_
  cases o with
  | nothing => exact not_congr hpending
  | call => simp only [OwedAt, hpending, hquiet, hquiet']
  | exit => simp only [OwedAt, hquiet, hquiet', filter_nil, ne_eq, not_true_eq_false, and_false]

/-- An event that has nothing to do with a `defer`. -/
def Neutral (d : Deferral) (e : Event) : Prop :=
  e ≠ .deferred d.call ∧ e.executes d.call = false ∧ d.drops e = false

theorem owes_neutral (he : Neutral d e) (hquiet : p.cleanupRun = [])
    (howes : Owes d q h p) : Owes d q (h ++ [e]) p := by
  obtain ⟨o, hrun, ho⟩ := howes
  obtain ⟨hagain, hexecutes, hdrops⟩ := he
  refine ⟨o, ?_, ho⟩
  rw [Owed.run_concat, hrun]
  cases o with
  | nothing => simp [Owed.step, hagain, hexecutes]
  | call => simp [Owed.step, hagain, hexecutes, hdrops]
  | exit =>
    -- no cleanup has run here
    rw [OwedAt, hquiet] at ho
    exact absurd rfl ho.2

theorem neutral_declared (d : Deferral) (block decl : NodeId) : Neutral d (.declared block decl) :=
  ⟨by simp, rfl, by simp [Deferral.drops]⟩

theorem neutral_ran (d : Deferral) (span : Span) : Neutral d (.ran span) :=
  ⟨by simp, rfl, by simp [Deferral.drops]⟩

variable {errors : List CleanupError} {body : Block} (hids : (idsOfBlock body).Nodup)
  (hscheduled : ∀ {p : Point}, p.In body → p.Scheduled ctx errors) (hq : q.In body)
  (hd : q.deferral? ctx = some d) (hhits : q.hitsHere ctx ≠ [])

include hids hd

/-- Behind a statement without `defer`s as much is pending as in front of it. -/
theorem pending_advance (hin : p.In body) (hnext : p.next? = some s) (hs : p.defersAt s = []) :
    Pending d q p.advance ↔ Pending d q p := by
  unfold Pending
  rw [Point.defers_advance_of_next hnext, hs, nil_append,
    Point.visible_advance_of_next hnext, mem_append]
  refine and_congr_right fun hmem => ?_
  have hfresh := hin.fresh_of_mem_defers hids hmem hnext (owner_visible hd)
  refine or_iff_left fun hnew => hfresh ?_
  -- a declaration has the number of its variable
  have hdecl := s.declared_subset_decls _ (Option.mem_toList.1 hnew)
  exact (decls_sublist_ids s).subset (mem_map_of_mem hdecl)

theorem pending_enter (hin : p.In body) (hnext : p.next? = some s)
    (hblock : (kind, loopVar, b) ∈ s.blocks) :
    Pending d q (p.enter kind loopVar b) ↔ Pending d q p := by
  have hdefers : (p.enter kind loopVar b).defers = p.defers := rfl
  unfold Pending
  rw [hdefers, Point.enter, Point.visible, mem_append]
  refine and_congr_right fun hmem => ?_
  have hfresh := hin.fresh_of_mem_defers hids hmem hnext (owner_visible hd)
  refine or_iff_left fun hnew => hfresh ?_
  refine (Point.ids_blocks_sublist hblock).subset (mem_append_left _ ?_)
  exact mem_map_of_mem (by simpa [OpenScope.own] using hnew)

section Leaf

include hq hhits hscheduled

/-- A cleanup statement executes the call only if that is owed, and then it is settled with the
end of the cleanup. -/
theorem owes_cleanup {item : Cleanup} (hin : p.In body) (hnext : p.next? = some (.cleanup item))
    (howes : Owes d q h p) : Owes d q (h ++ [.cleaned item]) p.advance := by
  have hrun := Point.cleanupRun_advance_cleanup hnext
  have hpending := pending_advance hids hd hin hnext rfl
  obtain ⟨o, ho, howed⟩ := howes
  by_cases hcall : isCall d.call item.action = true
  · have haction : item.action = .deferred d.call := by simpa [isCall] using hcall
    have hkeep : ∀ items : List Cleanup, (item :: items).filter (isCall d.call ·.action) =
        item :: items.filter (isCall d.call ·.action) :=
      fun items => filter_cons_of_pos hcall
    obtain ⟨kind, exit, later, hsequence⟩ := (hscheduled hin).cleanup item hnext
    -- the exit executes the call once, so this is the statement that does
    have hhere : q ∈ p.defers ∧ d.owner ∈ p.leaving kind := by
      by_contra hnot
      have hnone := exitCleanup_filter_of_not hids hq hd hin hhits kind
        (fun h h' => hnot ⟨h, h'⟩) exit
      rw [← hsequence, filter_append, hkeep] at hnone
      simp at hnone
    have hone := exitCleanup_filter_of_mem hids hq hd hin hhits kind hhere.1 hhere.2 exit
    rw [← hsequence, filter_append, hkeep] at hone
    have hfirst := append_eq_singleton_iff.1 hone
    simp only [cons_ne_nil, and_false, or_false, List.cons.injEq] at hfirst
    have hisPending : Pending d q p := ⟨hhere.1, p.leaving_subset_visible kind _ hhere.2⟩
    refine ⟨.exit, ?_, hpending.2 hisPending, ?_⟩
    · obtain rfl : o = .call := by
        cases o with
        | nothing => exact absurd hisPending howed
        | call => rfl
        | exit => exact absurd hfirst.1 howed.2
      have hdecl : item.decl = d.owner.decl := by rw [hfirst.2.1]
      rw [Owed.run_concat, ho]
      simp [Owed.step, Event.executes, Event.cleans, haction, hdecl]
    · rw [hrun, filter_append, hkeep]
      simp
  · have haction : item.action ≠ .deferred d.call := by simpa [isCall] using hcall
    have hfilter : p.advance.cleanupRun.filter (isCall d.call ·.action) =
        p.cleanupRun.filter (isCall d.call ·.action) := by
      have hskip : [item].filter (isCall d.call ·.action) = [] := filter_cons_of_neg hcall
      rw [hrun, filter_append, hskip, append_nil]
    refine ⟨o, ?_, ?_⟩
    · rw [Owed.run_concat, ho]
      cases o <;> simp [Owed.step, Event.executes, Deferral.drops, haction]
    · cases o with
      | nothing => exact fun hnow => howed (hpending.1 hnow)
      | call | exit => exact ⟨hpending.2 howed.1, hfilter ▸ howed.2⟩

omit hhits in
/-- A `defer` makes its own call owed, and no other. -/
theorem owes_defer (hin : p.In body)
    (hnext : p.next? = some (.defer span call)) (howes : Owes d q h p) :
    Owes d q (h ++ [.deferred call]) p.advance := by
  have hquiet := (hscheduled hin).quiet _ hnext rfl rfl
  have hbehind := Point.cleanupRun_advance hnext rfl
  have hvisible : p.advance.visible = p.visible :=
    (Point.visible_advance_of_next hnext).trans (append_nil _)
  have hdefers : p.advance.defers = p :: p.defers := Point.defers_advance_of_next hnext
  obtain ⟨span', hnext'⟩ := next_of_deferral hd
  by_cases hcall : call = d.call
  · -- this is the `defer` itself
    subst hcall
    obtain rfl := hq.eq_of_deferId? hids hin (Point.deferId?_eq_some hnext')
      (Point.deferId?_eq_some hnext)
    have hnot : ¬Pending d q q := fun hpending => hin.not_mem_defers_self hids hpending.1
    obtain ⟨o, ho, howed⟩ := howes
    obtain rfl : o = .nothing := by
      cases o with
      | nothing => rfl
      | call | exit => exact absurd howed.1 hnot
    refine ⟨.call, ?_, ⟨?_, ?_⟩, ?_⟩
    · rw [Owed.run_concat, ho]
      simp [Owed.step]
    · rw [hdefers]
      exact mem_cons_self
    · rw [hvisible]
      exact owner_visible hd
    · rw [hbehind]
      rfl
  · have hneutral : Neutral d (.deferred call) :=
      ⟨by simpa using hcall, rfl, by simp [Deferral.drops]⟩
    have hpending : Pending d q p.advance ↔ Pending d q p := by
      unfold Pending
      rw [hdefers, hvisible, mem_cons]
      refine and_congr_left fun _ => or_iff_right fun hself => hcall ?_
      subst hself
      exact (Stmt.defer.inj (Option.some.inj (hnext.symm.trans hnext'))).2
    exact (owes_same hquiet hbehind hpending).2 (owes_neutral hneutral hquiet howes)

theorem owes_step {block : NodeId} (hin : p.In body)
    (hnext : p.next? = some s) (hevents : s.events? block = some events) (howes : Owes d q h p) :
    Owes d q (h ++ events) p.advance := by
  -- of a statement that is neither cleanup nor a `defer`, the event is neutral
  have hother (hcleanup : s.isCleanup = false) (hreturn : s.isReturn = false)
      (hdefers : p.defersAt s = []) (e : Event) (he : Neutral d e) :
      Owes d q (h ++ [e]) p.advance := by
    have hquiet := (hscheduled hin).quiet s hnext hcleanup hreturn
    have hpending := pending_advance hids hd hin hnext hdefers
    exact (owes_same hquiet (Point.cleanupRun_advance hnext hcleanup) hpending).2
      (owes_neutral he hquiet howes)
  cases s with
  | varDecl v =>
    obtain rfl := Option.some.inj hevents
    exact hother rfl rfl rfl _ (neutral_declared d _ _)
  | assign | call =>
    obtain rfl := Option.some.inj hevents
    exact hother rfl rfl rfl _ (neutral_ran d _)
  | defer span call =>
    obtain rfl := Option.some.inj hevents
    exact owes_defer hids hscheduled hq hd hin hnext howes
  | cleanup item =>
    obtain rfl := Option.some.inj hevents
    exact owes_cleanup hids hscheduled hq hd hhits hin hnext howes
  | _ => contradiction

end Leaf

section Leave

variable {head : ScopeHead} {before : List Stmt} {outer : Point}

include hhits

/-- A call that is deferred in a scope that may not run, on a variable of a scope around it, is
dropped at the end of that scope. -/
theorem dropper_of_mem_defersAmong (hin : Point.In body (⟨head, before, []⟩ :: outer))
    (hkind : head.kind.isConditional = true) (hreturn : before.any Stmt.isReturn = false)
    (hmem : q ∈ Point.defersAmong outer head [] [] before) (howner : d.owner ∈ outer.visible) :
    d.dropper = some head.block := by
  have hqin : q.In body := hin.of_mem_defers (mem_append_left _ hmem)
  obtain ⟨earlier, s, later, rfl, hfound⟩ := Point.exists_of_mem_defersAmong hmem
  obtain ⟨inner, rfl, hinner⟩ := (Point.below_of_mem_defersAt .here s rfl hfound).1.exists_append
  rw [nil_append, append_nil] at hqin hd hhits
  have hown : ∀ sc ∈ inner ++ [⟨head, earlier, s :: later⟩], d.owner ∉ sc.own := by
    refine Point.In.not_own_of_append hids (q := outer) ?_ howner
    simpa using hqin
  have hhere : d.owner ∉ OpenScope.own ⟨head, earlier, s :: later⟩ :=
    hown _ (mem_append_right _ (mem_singleton_self _))
  rw [(targets_of_deferral hd).2.2]
  cases inner with
  | nil =>
    -- directly in the scope it takes effect only in front of a `return`
    rcases return_or_own_of_hits hd hhits hkind with hlater | hlater
    · have hall : later.any Stmt.isReturn = false := by simp_all
      rw [tail_cons, hall] at hlater
      contradiction
    · exact absurd hlater hhere
  | cons sc inner =>
    have hplain : sc.head.kind.isConditional = false := by
      rw [hinner sc mem_cons_self]
      rfl
    have hkeeper : Point.keeper? d.owner ((sc :: inner) ++ ⟨head, earlier, s :: later⟩ :: outer) =
        Point.keeper? d.owner (⟨head, earlier, s :: later⟩ :: outer) :=
      Point.keeper?_append hinner fun sc' h => hown sc' (mem_append_left _ h)
    rw [cons_append, Point.dropper?, hplain, ← cons_append, hkeeper, Point.keeper?,
      if_neg hhere, if_pos hkind]
    rfl

omit hhits in
/-- Where a `defer` still counts, its call was not dropped. -/
theorem drops_eq_false_of_mem (hin : Point.In body (⟨head, before, []⟩ :: outer))
    (hmem : q ∈ outer.advance.defers) : d.drops (.left head.block .fallOff) = false := by
  by_contra hdrops
  obtain ⟨block, hdropper, hleft⟩ :=
    Deferral.drops_eq_true_iff.1 (eq_true_of_ne_false hdrops)
  obtain ⟨rfl, -⟩ := Event.left.inj hleft
  rw [(targets_of_deferral hd).2.2] at hdropper
  obtain ⟨sc, hsc, hblock, hkind⟩ := Point.exists_of_dropper? hdropper
  have hplain : sc.head.kind ≠ .block := by
    intro hplain
    rw [hplain] at hkind
    contradiction
  obtain ⟨sc', hsc', hhead⟩ := Point.exists_head_of_mem_defers hmem hsc hplain
  -- the scope that drops the call would be open around itself
  have hopen : head.block ∈ outer.blocks := by
    rw [← Point.blocks_advance, ← hblock, ← hhead]
    exact mem_map_of_mem hsc'
  exact (nodup_cons.1 (hin.nodup_blocks hids)).1 hopen

include hscheduled hq

theorem owes_leave (hin : Point.In body (⟨head, before, []⟩ :: outer))
    (hreturn : before.any Stmt.isReturn = false)
    (howes : Owes d q h (⟨head, before, []⟩ :: outer)) :
    Owes d q (h ++ [.left head.block .fallOff]) outer.advance := by
  have hexit := (hscheduled hin).cleanupRun_end hreturn
  have hquiet := hin.cleanupRun_outer
  have hvisible := hin.visible_outer
  obtain ⟨o, ho, howed⟩ := howes
  by_cases howner : d.owner ∈ OpenScope.own ⟨head, before, []⟩
  · -- the variable goes out of scope
    have hgone : ¬Pending d q outer.advance := by
      intro hpending
      refine hin.not_visible_of_own hids (mem_map_of_mem howner) (mem_map_of_mem ?_)
      rw [← hvisible]
      exact hpending.2
    refine ⟨.nothing, ?_, hgone⟩
    rw [Owed.run_concat, ho]
    cases o with
    | nothing => simp [Owed.step, Event.executes]
    | call =>
      -- the cleanup at the end of the scope has executed the call
      have hexecuted := exitCleanup_filter_of_mem hids hq hd hin hhits .fallOff howed.1.1
        howner (Cleanup.closingBrace head.span)
      rw [← hexit, howed.2] at hexecuted
      contradiction
    | exit =>
      -- the scope that is left is the one that the variable had at the `defer`
      have hscope : d.scope = some head.block := by
        rw [(targets_of_deferral hd).2.1,
          hin.scopeOf?_of_mem_defers hids howed.1.1 (owner_visible hd) howed.1.2]
        exact if_pos (mem_map_of_mem howner)
      simp [Owed.step, hscope]
  · have hnone : (Point.cleanupRun (⟨head, before, []⟩ :: outer)).filter
        (isCall d.call ·.action) = [] := by
      rw [hexit]
      exact exitCleanup_filter_of_not hids hq hd hin hhits .fallOff (fun _ h => howner h) _
    cases o with
    | nothing =>
      refine ⟨.nothing, ?_, fun hpending => howed ⟨?_, ?_⟩⟩
      · rw [Owed.run_concat, ho]
        simp [Owed.step, Event.executes]
      · rcases hin.defers_leave with ⟨-, hdefers⟩ | ⟨-, hdefers⟩
        · exact hdefers ▸ hpending.1
        · exact mem_append_right _ (hdefers ▸ hpending.1)
      · exact mem_append_left _ (hvisible ▸ hpending.2)
    | call =>
      have houter : d.owner ∈ outer.visible :=
        (mem_append.1 howed.1.2).resolve_right howner
      by_cases hstill : q ∈ outer.advance.defers
      · -- the block that drops the call is still open
        have hdrops : d.drops (.left head.block .fallOff) = false :=
          drops_eq_false_of_mem hids hd hin hstill
        refine ⟨.call, ?_, ⟨hstill, hvisible ▸ houter⟩, by rw [hquiet]; rfl⟩
        rw [Owed.run_concat, ho]
        simp [Owed.step, Event.executes, hdrops]
      · have hdropper : d.dropper = some head.block := by
          rcases hin.defers_leave with ⟨-, hdefers⟩ | ⟨hkind, hdefers⟩
          · exact absurd (hdefers ▸ howed.1.1) hstill
          · rw [hdefers] at hstill
            have hmem := (mem_append.1 howed.1.1).resolve_right hstill
            rcases hkind with rfl | hkind
            · contradiction
            · exact dropper_of_mem_defersAmong hids hd hhits hin hkind hreturn hmem houter
        refine ⟨.nothing, ?_, fun hpending => hstill hpending.1⟩
        rw [Owed.run_concat, ho]
        simp [Owed.step, Event.executes, Deferral.drops, hdropper]
    | exit => exact absurd hnone howed.2

end Leave

include hscheduled

omit hids hd in
theorem owes_test (span : Span) (hin : p.In body) (hnext : p.next? = some s)
    (hs : s.blocks ≠ []) (howes : Owes d q h p) : Owes d q (h ++ [.ran span]) p :=
  owes_neutral (neutral_ran d span) (quiet_of_blocks hscheduled hin hnext hs) howes

theorem owes_enter
    (hin : p.In body) (hnext : p.next? = some s) (hblock : (kind, loopVar, b) ∈ s.blocks)
    (howes : Owes d q h p) :
    Owes d q (h ++ (loopVar.map LocalVar.decl).toList.map (.declared b.id))
      (p.enter kind loopVar b) := by
  have hquiet := quiet_of_blocks hscheduled hin hnext (ne_nil_of_mem hblock)
  have hstart : (p.enter kind loopVar b).cleanupRun = [] := rfl
  rw [owes_same hquiet hstart (pending_enter hids hd hin hnext hblock)]
  cases loopVar with
  | none => simpa using howes
  | some x => exact owes_neutral (neutral_declared d b.id x.decl) hquiet howes

theorem owes_skip
    (hin : p.In body) (hnext : p.next? = some s) (hblock : (kind, loopVar, b) ∈ s.blocks)
    (hkind : kind.isConditional = true) : Owes d q h p ↔ Owes d q h p.advance := by
  have hs := ne_nil_of_mem hblock
  have hquiet := quiet_of_blocks hscheduled hin hnext hs
  have hbehind := Point.cleanupRun_advance hnext (Stmt.isCleanup_of_blocks hs).1
  refine (owes_same hquiet hbehind (pending_advance hids hd hin hnext ?_)).symm
  exact Point.defersAt_of_conditional hblock hkind

include hq hhits

theorem settled_of_owes {value : Option Expr} (hin : p.In body)
    (hnext : p.next? = some (.ret span value)) (howes : Owes d q h p) : Settled d h p := by
  have hexit := (hscheduled hin).cleanupRun_return hnext
  obtain ⟨o, ho, howed⟩ := howes
  cases o with
  | nothing => exact .inl ho
  | call =>
    -- a `return` takes every visible variable out of scope
    have hexecuted := exitCleanup_filter_of_mem hids hq hd hin hhits .ret howed.1.1
      howed.1.2 span
    rw [← hexit, howed.2] at hexecuted
    contradiction
  | exit =>
    refine .inr ⟨ho, ?_⟩
    rintro rfl
    contradiction

omit hids hd hscheduled hq hhits in
theorem settled_leave (block : NodeId) (hsettled : Settled d h p) :
    Settled d (h ++ [.left block .ret]) p' := by
  refine .inl ?_
  rcases hsettled with ho | ⟨ho, -⟩
  · rw [Owed.run_concat, ho]
    simp [Owed.step, Event.executes]
  · rw [Owed.run_concat, ho]
    simp [Owed.step]

/-- What is owed to a `defer` fits the points along every path. -/
theorem invariant_owes : Invariant body (Owes d q) (Settled d) where
  step hin := owes_step hids hscheduled hq hd hhits hin rfl
  test := owes_test hscheduled
  enter := owes_enter hids hscheduled hd
  leave := owes_leave hids hscheduled hq hd hhits
  skip := owes_skip hids hscheduled hd
  ret := settled_of_owes hids hscheduled hq hd hhits
  leaveReturning _ hsettled := settled_leave _ hsettled

/-- In the end of a path nothing is owed to a `defer`. -/
theorem owed_path (hpath : body.Path events) :
    Owed.run d .nothing events = some .nothing := by
  -- at the start of a body no `defer` counts
  have hstart : Owes d q [] [⟨⟨body.id, body.span, .body, none⟩, [], body.stmts⟩] :=
    ⟨.nothing, rfl, fun hpending => not_mem_nil hpending.1⟩
  rcases (invariant_owes hids hscheduled hq hd hhits).path hpath hstart with hend | hend
  · obtain ⟨o, ho, howed⟩ := hend
    cases o with
    | nothing => exact ho
    | call | exit => exact absurd howed.1.1 not_mem_nil
  · rcases hend with ho | ⟨-, hne⟩
    · exact ho
    · exact absurd rfl hne

end Steps

section Standing

variable {body : Block} {h : List Event}

/-- Every `defer` that was executed stands in the body. -/
def DefersStand (body : Block) (h : List Event) : Prop :=
  ∀ call, .deferred call ∈ h → ∃ q, Point.In body q ∧ ∃ span, q.next? = some (.defer span call)

theorem DefersStand.concat (hstand : DefersStand body h)
    (he : ∀ call, e ≠ .deferred call) : DefersStand body (h ++ [e]) := by
  intro call hcall
  rcases mem_append.1 hcall with hcall | hcall
  · exact hstand call hcall
  · exact absurd (mem_singleton.1 hcall).symm (he call)

theorem DefersStand.step {head : ScopeHead} {before rest : List Stmt} {outer : Point}
    (hin : Point.In body (⟨head, before, s :: rest⟩ :: outer))
    (hevents : s.events? head.block = some events) (hstand : DefersStand body h) :
    DefersStand body (h ++ events) := by
  cases s with
  | defer span call =>
    obtain rfl := Option.some.inj hevents
    intro call' hcall'
    rcases mem_append.1 hcall' with hcall' | hcall'
    · exact hstand call' hcall'
    · obtain rfl : call' = call := by simpa using hcall'
      exact ⟨_, hin, span, rfl⟩
  | varDecl | assign | call | cleanup =>
    obtain rfl := Option.some.inj hevents
    exact hstand.concat (by simp)
  | _ => contradiction

/-- Only the `defer`s of a body are executed along a path through it. -/
theorem invariant_defersStand :
    Invariant body (fun h _ => DefersStand body h) (fun h _ => DefersStand body h) where
  step hin hevents hstand := hstand.step hin hevents
  test _ _ _ _ hstand := hstand.concat (by simp)
  enter {_ _ _ _ loopVar _} _ _ _ hstand := by
    cases loopVar with
    | none => simpa using hstand
    | some x => exact hstand.concat (by simp)
  leave _ _ hstand := hstand.concat (by simp)
  skip _ _ _ _ := Iff.rfl
  ret _ _ hstand := hstand
  leaveReturning _ hstand := hstand.concat (by simp)

theorem exists_of_deferred (hpath : body.Path events) (hcall : .deferred call ∈ events) :
    ∃ q, Point.In body q ∧ ∃ span, q.next? = some (.defer span call) := by
  have hstart : DefersStand body [] := fun _ hnone => absurd hnone not_mem_nil
  have hend : DefersStand body events := (invariant_defersStand.path hpath hstart).elim id id
  exact hend call hcall

end Standing

/-- On every path through a body of a source that is scheduled without errors, the call of each
`defer` that is executed is executed once, or it is dropped. -/
theorem deferred_calls_answered (s : Source)
    (h : (s.program.scheduleCleanup s.context s.diagnostics).2 = []) :
    ∃ result, s.program.scheduleCleanup s.context s.diagnostics = (some result, []) ∧
      ∀ body ∈ result.program.bodies, ∀ events, body.Path events →
        ∀ earlier call later, events = earlier ++ .deferred call :: later →
          ∃ q ∈ body.points, ∃ span d, q.next? = some (.defer span call) ∧
            q.deferral? s.context = some d ∧ (d.ExecutedOnce later ∨ d.Dropped later) := by
  obtain ⟨hschedule, hnone⟩ := s.scheduleCleanup_eq_of_no_errors h
  refine ⟨_, hschedule, ?_⟩
  intro body hbody events hpath earlier call later hevents
  have hscheduled : ∀ {p : Point}, p.In body → p.Scheduled s.context s.planned.2 :=
    fun hin => s.scheduled_planned hbody (Point.mem_points_iff.2 hin)
  have hcall : .deferred call ∈ events := by simp [hevents]
  obtain ⟨q, hq, span, hnext⟩ := exists_of_deferred hpath hcall
  have hhits := (hscheduled hq).deferred hnone span call hnext
  obtain ⟨d, hd, rfl⟩ := exists_deferral hnext hhits
  have hend := owed_path (s.nodup_ids_planned hbody) hscheduled hq hd hhits hpath
  exact ⟨q, Point.mem_points_iff.2 hq, span, d, hnext, hd, Owed.answered_of_run hend hevents⟩

/-- A source in which every round of a loop defers a call on its own variable. -/
def releaseInLoop : Source :=
  .ofText 0 "release" ("fn main() \x7b int x = 1; while (true) \x7b int y = 2; " ++
    "\x7b defer release(y, x); \x7d \x7d \x7d").toList

theorem deferred_calls_answered_releaseInLoop :
    (releaseInLoop.program.scheduleCleanup releaseInLoop.context releaseInLoop.diagnostics).2 =
        [] ∧
      ∃ result, releaseInLoop.program.scheduleCleanup releaseInLoop.context
          releaseInLoop.diagnostics = (some result, []) ∧
        ∀ body ∈ result.program.bodies, ∀ events, body.Path events →
          ∀ earlier call later, events = earlier ++ .deferred call :: later →
            ∃ q ∈ body.points, ∃ span d, q.next? = some (.defer span call) ∧
              q.deferral? releaseInLoop.context = some d ∧
                (d.ExecutedOnce later ∨ d.Dropped later) := by
  have hnone : (releaseInLoop.program.scheduleCleanup releaseInLoop.context
      releaseInLoop.diagnostics).2 = [] := by decide +kernel
  exact ⟨hnone, deferred_calls_answered releaseInLoop hnone⟩

/-- A source in which a plain block in a branch defers a call on a variable around the branch. -/
def deferInBranch : Source :=
  .ofText 0 "branch" ("fn main() \x7b int x = 1; if (true) \x7b " ++
    "\x7b defer destroy(x); \x7d \x7d \x7d").toList

/-- Without any error, a deferred call may never be executed. -/
theorem deferred_call_dropped_deferInBranch :
    ∃ result, deferInBranch.program.scheduleCleanup deferInBranch.context
        deferInBranch.diagnostics = (some result, []) ∧
      ∃ body ∈ result.program.bodies, ∃ events call, body.Path events ∧
        .deferred call ∈ events ∧ ∀ e ∈ events, e.executes call = false := by
  have hnone : (deferInBranch.program.scheduleCleanup deferInBranch.context
      deferInBranch.diagnostics).2 = [] := by decide +kernel
  have hdropped : ∃ body ∈ deferInBranch.planned.1.program.bodies,
      body.straightPath.any fun e =>
        match e with
        | .deferred call => body.straightPath.all fun e => !e.executes call
        | _ => false := by decide +kernel
  obtain ⟨body, hbody, hany⟩ := hdropped
  obtain ⟨e, he, hall⟩ := List.any_eq_true.1 hany
  refine ⟨_, (deferInBranch.scheduleCleanup_eq_of_no_errors hnone).1, body, hbody,
    body.straightPath, ?_⟩
  cases e with
  | deferred call =>
      refine ⟨call, body.path_straightPath, he, ?_⟩
      simpa using hall
  | _ => exact absurd hall Bool.false_ne_true

end DeferLang
