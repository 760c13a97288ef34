import DeferLang.Proofs.ExitCleanup
import DeferLang.Proofs.Paths

/-!
# The lives of local variables

On every path through a scheduled body a variable is declared, cleaned up by
cleanup statements that stand together, and then leaves its scope, and nothing
else is ever done to it.

The life of one variable along a path is followed by `Life.run`.  At every
point of a body it is the same for all the paths that lead there: a variable is
alive if it is visible, and only the cleanup statements immediately before the
point can have cleaned it up.
-/

namespace DeferLang

open List

namespace Event

/-- Whether a cleanup statement runs for the variable declared at a node. -/
def cleans (d : NodeId) : Event → Bool
  | .cleaned item => item.decl = d
  | _ => false

/-- Whether something happens to the variable declared at a node, in the scope of a block:
it is declared or cleaned up, or control leaves the scope. -/
def touches (d block : NodeId) : Event → Bool
  | .declared _ decl => decl = d
  | .cleaned item => item.decl = d
  | .left b _ => b = block
  | _ => false

end Event

/-- Every declared variable is cleaned up by one group of cleanup statements before control
leaves its scope, and meanwhile it is not declared again. -/
def CleansEach (events : List Event) : Prop :=
  ∀ earlier block d later, events = earlier ++ .declared block d :: later →
    ∃ between group after how rest,
      later = between ++ (group ++ (after ++ .left block how :: rest)) ∧
        group ≠ [] ∧ (∀ e ∈ group, e.cleans d = true) ∧
        (∀ e ∈ between, e.touches d block = false) ∧ (∀ e ∈ after, e.touches d block = false)

/-- Cleanup only runs for variables that are alive: declared, with control still in their scope,
and not cleaned up by an earlier group. -/
def CleansOnlyLive (events : List Event) : Prop :=
  ∀ earlier item later, events = earlier ++ .cleaned item :: later →
    ∃ before block between group,
      earlier = before ++ .declared block item.decl :: (between ++ group) ∧
      (∀ e ∈ between, e.touches item.decl block = false) ∧
      (∀ e ∈ group, e.cleans item.decl = true)

/-- How far the life of a variable has got: it is not alive, it is alive in the scope of a
block, cleanup of it is going on, or it is cleaned up. -/
inductive Life where
  | dead
  | live (block : NodeId)
  | cleaning (block : NodeId)
  | cleaned (block : NodeId)

/-- One more event at the end of a run. -/
theorem foldlM_concat {α : Type} (step : α → Event → Option α) (a : α) (es : List Event)
    (e : Event) : (es ++ [e]).foldlM step a = (es.foldlM step a).bind fun a' => step a' e := by
  rw [foldlM_append]
  congr 1
  funext a'
  exact bind_pure (step a' e)

variable {l : Life} {events : List Event} {block : NodeId}

namespace Life

/-- Once something else happens, cleanup that was going on is over. -/
def settle : Life → Life
  | .cleaning block => .cleaned block
  | l => l

/-- What an event does to the life of the variable declared at node `d`.  There is none after
an event that must not happen. -/
def step (d : NodeId) : Life → Event → Option Life
  | l, .declared block decl =>
    if decl = d then
      match l with
      | .dead => some (.live block)
      | _ => none
    else some l.settle
  | l, .cleaned item =>
    if item.decl = d then
      match l with
      | .live block => some (.cleaning block)
      | .cleaning block => some (.cleaning block)
      | _ => none
    else some l.settle
  | .dead, .left _ _ => some .dead
  | .live block, .left b _ => if b = block then none else some (.live block)
  | .cleaning block, .left b _ => if b = block then some .dead else some (.cleaned block)
  | .cleaned block, .left b _ => if b = block then some .dead else some (.cleaned block)
  | l, _ => some l.settle

/-- The variable is cleaned up, just now or earlier. -/
def Done (l : Life) (block : NodeId) : Prop :=
  l = .cleaning block ∨ l = .cleaned block

theorem Done.block_eq {block' : NodeId} (h : l.Done block) (h' : l.Done block') :
    block = block' := by
  rcases h with rfl | rfl <;> simpa [Done] using h'

/-- What events do to the life of the variable declared at node `d`. -/
def run (d : NodeId) (l : Life) (events : List Event) : Option Life :=
  events.foldlM (step d) l

variable {d : NodeId}

theorem run_cons (l : Life) (e : Event) (es : List Event) :
    run d l (e :: es) = (l.step d e).bind fun l' => run d l' es :=
  foldlM_cons

theorem run_append (l : Life) (xs ys : List Event) :
    run d l (xs ++ ys) = (run d l xs).bind fun l' => run d l' ys :=
  foldlM_append

theorem run_concat (l : Life) (es : List Event) (e : Event) :
    run d l (es ++ [e]) = (run d l es).bind fun l' => l'.step d e :=
  foldlM_concat _ l es e

attribute [local simp] step in
theorem step_cleaned_other {item : Cleanup} (h : item.decl ≠ d) (l : Life) :
    l.step d (.cleaned item) = some l.settle := by
  cases l <;> simp [h]

theorem step_declared_other {decl : NodeId} (h : decl ≠ d) (l : Life) (block : NodeId) :
    l.step d (.declared block decl) = some l.settle := by
  cases l <;> simp [step, h]

theorem step_ran (l : Life) (span : Span) : l.step d (.ran span) = some l.settle := by
  cases l <;> rfl

theorem step_deferred (l : Life) (call : Call) : l.step d (.deferred call) = some l.settle := by
  cases l <;> rfl

/-- Control leaves the scope of a variable that is cleaned up. -/
theorem step_left_of_done (h : l.Done block) (how : ExitKind) :
    l.step d (.left block how) = some .dead := by
  rcases h with rfl | rfl <;> simp [step]

theorem step_left_other_of_done {block' : NodeId} (h : l.Done block)
    (hne : block' ≠ block) (how : ExitKind) :
    l.step d (.left block' how) = some (.cleaned block) := by
  rcases h with rfl | rfl <;> simp [step, hne]

section Inversion

variable {e : Event}

/-- What an event can do in the life of a variable. -/
inductive Steps (d : NodeId) (e : Event) : Life → Life → Prop where
  | declared {block : NodeId} (h : e = .declared block d) : Steps d e .dead (.live block)
  | begun {block : NodeId} (h : e.cleans d = true) : Steps d e (.live block) (.cleaning block)
  | more {block : NodeId} (h : e.cleans d = true) : Steps d e (.cleaning block) (.cleaning block)
  | left {l : Life} {block : NodeId} {how : ExitKind} (hdone : l.Done block)
      (h : e = .left block how) : Steps d e l .dead
  | dead : Steps d e .dead .dead
  | live {block : NodeId} (h : e.touches d block = false) : Steps d e (.live block) (.live block)
  | done {l : Life} {block : NodeId} (hdone : l.Done block) (h : e.touches d block = false) :
      Steps d e l (.cleaned block)

theorem Steps.settle (h : ∀ block, e.touches d block = false) (l : Life) :
    Steps d e l l.settle := by
  cases l with
  | dead => exact .dead
  | live block => exact .live (h block)
  | cleaning block => exact .done (.inl rfl) (h block)
  | cleaned block => exact .done (.inr rfl) (h block)

theorem steps_of_step {l' : Life} (h : l.step d e = some l') : Steps d e l l' := by
  have hsettle (hstep : l.step d e = some l.settle)
      (huntouched : ∀ block, e.touches d block = false) : Steps d e l l' := by
    obtain rfl := Option.some.inj (hstep.symm.trans h)
    exact .settle huntouched l
  cases e with
  | declared block decl =>
    by_cases hd : decl = d
    · subst hd
      cases l <;> simp only [step, if_true, reduceCtorEq] at h
      obtain rfl := Option.some.inj h
      exact .declared rfl
    · exact hsettle (step_declared_other hd l block) fun _ => decide_eq_false hd
  | cleaned item =>
    by_cases hd : item.decl = d
    · cases l <;> simp only [step, hd, if_true, reduceCtorEq] at h <;>
        obtain rfl := Option.some.inj h
      · exact .begun (decide_eq_true hd)
      · exact .more (decide_eq_true hd)
    · exact hsettle (step_cleaned_other hd l) fun _ => decide_eq_false hd
  | left b how =>
    have hleft {block : NodeId} (hdone : l.Done block) : Steps d (.left b how) l l' := by
      by_cases hb : b = block
      · subst hb
        obtain rfl := Option.some.inj ((step_left_of_done hdone how).symm.trans h)
        exact .left hdone rfl
      · obtain rfl := Option.some.inj ((step_left_other_of_done hdone hb how).symm.trans h)
        exact .done hdone (decide_eq_false hb)
    cases l with
    | dead =>
      obtain rfl := Option.some.inj h
      exact .dead
    | live block =>
      by_cases hb : b = block
      · simp [step, hb] at h
      · obtain rfl : .live block = l' := by simpa [step, hb] using h
        exact .live (decide_eq_false hb)
    | cleaning block => exact hleft (.inl rfl)
    | cleaned block => exact hleft (.inr rfl)
  | ran span => exact hsettle (step_ran l span) fun _ => rfl
  | deferred call => exact hsettle (step_deferred l call) fun _ => rfl

end Inversion

section Shape

variable {block : NodeId} {events : List Event}

/-- A life that is over its cleanup ends when control leaves the scope. -/
theorem shape_of_cleaned (h : run d (.cleaned block) events = some .dead) :
    ∃ after how rest, events = after ++ .left block how :: rest ∧
      ∀ e ∈ after, e.touches d block = false := by
  induction events with
  | nil => simp [run] at h
  | cons e es ih =>
    rw [run_cons] at h
    obtain ⟨l, hstep, hes⟩ := Option.bind_eq_some_iff.1 h
    cases steps_of_step hstep with
    | left hdone he =>
      obtain rfl := hdone.block_eq (.inr rfl)
      exact ⟨[], _, es, by rw [he]; rfl, by simp⟩
    | done hdone htouches =>
      obtain rfl := hdone.block_eq (.inr rfl)
      obtain ⟨after, how, rest, rfl, hafter⟩ := ih hes
      exact ⟨e :: after, how, rest, rfl, forall_mem_cons.2 ⟨htouches, hafter⟩⟩

/-- Cleanup that is going on may go on further. -/
theorem shape_of_cleaning (h : run d (.cleaning block) events = some .dead) :
    ∃ group after how rest, events = group ++ (after ++ .left block how :: rest) ∧
      (∀ e ∈ group, e.cleans d = true) ∧ ∀ e ∈ after, e.touches d block = false := by
  induction events with
  | nil => simp [run] at h
  | cons e es ih =>
    rw [run_cons] at h
    obtain ⟨l, hstep, hes⟩ := Option.bind_eq_some_iff.1 h
    cases steps_of_step hstep with
    | more hcleans =>
      obtain ⟨group, after, how, rest, rfl, hgroup, hafter⟩ := ih hes
      exact ⟨e :: group, after, how, rest, rfl, forall_mem_cons.2 ⟨hcleans, hgroup⟩, hafter⟩
    | left hdone he =>
      obtain rfl := hdone.block_eq (.inl rfl)
      exact ⟨[], [], _, es, by rw [he]; rfl, by simp, by simp⟩
    | done hdone htouches =>
      obtain rfl := hdone.block_eq (.inl rfl)
      obtain ⟨after, how, rest, rfl, hafter⟩ := shape_of_cleaned hes
      exact ⟨[], e :: after, how, rest, rfl, by simp, forall_mem_cons.2 ⟨htouches, hafter⟩⟩

/-- What is alive is cleaned up before its life ends. -/
theorem shape_of_live (h : run d (.live block) events = some .dead) :
    ∃ between group after how rest,
      events = between ++ (group ++ (after ++ .left block how :: rest)) ∧
        group ≠ [] ∧ (∀ e ∈ group, e.cleans d = true) ∧
        (∀ e ∈ between, e.touches d block = false) ∧ ∀ e ∈ after, e.touches d block = false := by
  induction events with
  | nil => simp [run] at h
  | cons e es ih =>
    rw [run_cons] at h
    obtain ⟨l, hstep, hes⟩ := Option.bind_eq_some_iff.1 h
    cases steps_of_step hstep with
    | begun hcleans =>
      obtain ⟨group, after, how, rest, rfl, hgroup, hafter⟩ := shape_of_cleaning hes
      exact ⟨[], e :: group, after, how, rest, rfl, cons_ne_nil _ _,
        forall_mem_cons.2 ⟨hcleans, hgroup⟩, by simp, hafter⟩
    | left hdone _ | done hdone _ => cases hdone with | inl heq | inr heq => cases heq
    | live htouches =>
      obtain ⟨between, group, after, how, rest, rfl, hne, hgroup, hbetween, hafter⟩ := ih hes
      exact ⟨e :: between, group, after, how, rest, rfl, hne, hgroup,
        forall_mem_cons.2 ⟨htouches, hbetween⟩, hafter⟩

/-- What led to a life that is not cleaned up yet. -/
def Begun (d block : NodeId) (events group : List Event) : Prop :=
  ∃ before between, events = before ++ .declared block d :: (between ++ group) ∧
    (∀ e ∈ between, e.touches d block = false) ∧ ∀ e ∈ group, e.cleans d = true

theorem begun_of_run :
    (run d .dead events = some (.live block) → Begun d block events []) ∧
      (run d .dead events = some (.cleaning block) → ∃ group, Begun d block events group) := by
  -- the last event decides, so the induction is from the back
  induction events using List.reverseRecOn with
  | nil => simp [run]
  | append_singleton es e ih =>
    rw [run_concat]
    constructor
    · intro h
      obtain ⟨l, hl, hstep⟩ := Option.bind_eq_some_iff.1 h
      cases steps_of_step hstep with
      | declared he => exact ⟨es, [], by simp [he], by simp, by simp⟩
      | live htouches =>
        obtain ⟨before, between, rfl, hbetween, -⟩ := ih.1 hl
        refine ⟨before, between ++ [e], by simp, ?_, by simp⟩
        simpa [or_imp, forall_and] using ⟨hbetween, htouches⟩
    · intro h
      obtain ⟨l, hl, hstep⟩ := Option.bind_eq_some_iff.1 h
      obtain ⟨hcleans, group, before, between, rfl, hbetween, hgroup⟩ :
          e.cleans d = true ∧ ∃ group, Begun d block es group := by
        cases steps_of_step hstep with
        | begun hcleans => exact ⟨hcleans, [], ih.1 hl⟩
        | more hcleans => exact ⟨hcleans, ih.2 hl⟩
      refine ⟨group ++ [e], before, between, by simp, hbetween, ?_⟩
      simpa [or_imp, forall_and] using ⟨hgroup, hcleans⟩

end Shape

/-- If all lives end well, all is cleaned up as it should be. -/
theorem cleansEach_of_run (h : ∀ d, run d .dead events = some .dead) :
    CleansEach events := by
  rintro earlier block d later rfl
  obtain ⟨l, -, hl⟩ := Option.bind_eq_some_iff.1 (run_append .dead earlier _ ▸ h d)
  rw [run_cons] at hl
  obtain ⟨l', hstep, hlater⟩ := Option.bind_eq_some_iff.1 hl
  -- only a variable that is not alive can be declared
  obtain rfl : l' = .live block := by
    cases l with
    | dead => simpa [step] using hstep.symm
    | _ => simp [step] at hstep
  exact shape_of_live hlater

theorem cleansOnlyLive_of_run (h : ∀ d, run d .dead events = some .dead) :
    CleansOnlyLive events := by
  rintro earlier item later rfl
  obtain ⟨l, hearlier, hl⟩ := Option.bind_eq_some_iff.1 (run_append .dead earlier _ ▸ h item.decl)
  rw [run_cons] at hl
  obtain ⟨l', hstep, -⟩ := Option.bind_eq_some_iff.1 hl
  have hbegun : ∃ block group, Begun item.decl block earlier group := by
    cases l with
    | dead => simp [step] at hstep
    | live block => exact ⟨block, [], begun_of_run.1 hearlier⟩
    | cleaning block => exact ⟨block, begun_of_run.2 hearlier⟩
    | cleaned block => simp [step] at hstep
  obtain ⟨block, group, before, between, heq, hbetween, hgroup⟩ := hbegun
  exact ⟨before, block, between, group, heq, hbetween, hgroup⟩

section Sequences

variable {block : NodeId} {l : Life} {items : List Cleanup}

/-- Cleanup of other variables does not touch this one. -/
theorem run_cleaned_other (hsettled : l.settle = l) (hitems : ∀ item ∈ items, item.decl ≠ d) :
    run d l (items.map .cleaned) = some l := by
  induction items with
  | nil => rfl
  | cons item items ih =>
    have hfirst : item.decl ≠ d := hitems item mem_cons_self
    have hstep : l.step d (.cleaned item) = some l := by
      rw [step_cleaned_other hfirst, hsettled]
    rw [map_cons, run_cons, hstep]
    exact ih fun item' h => hitems item' (mem_cons_of_mem _ h)

theorem run_cleaned_done (hdone : l.Done block) (hitems : ∀ item ∈ items, item.decl ≠ d) :
    ∃ l', run d l (items.map .cleaned) = some l' ∧ l'.Done block := by
  cases items with
  | nil => exact ⟨l, rfl, hdone⟩
  | cons item items =>
    have hfirst : item.decl ≠ d := hitems item mem_cons_self
    have hstep : l.step d (.cleaned item) = some (.cleaned block) := by
      rw [step_cleaned_other hfirst]
      rcases hdone with rfl | rfl <;> rfl
    refine ⟨.cleaned block, ?_, .inr rfl⟩
    rw [map_cons, run_cons, hstep]
    exact run_cleaned_other rfl fun item' h => hitems item' (mem_cons_of_mem _ h)

/-- Cleanup of this variable goes on as long as it likes. -/
theorem run_cleaned_self (hitems : ∀ item ∈ items, item.decl = d)
    (hl : l = .live block ∧ items ≠ [] ∨ l = .cleaning block) :
    run d l (items.map .cleaned) = some (.cleaning block) := by
  induction items generalizing l with
  | nil =>
    obtain rfl : l = .cleaning block := by simpa using hl
    rfl
  | cons item items ih =>
    have hstep : l.step d (.cleaned item) = some (.cleaning block) := by
      have hfirst := hitems item mem_cons_self
      rcases hl with ⟨rfl, -⟩ | rfl <;> simp [step, hfirst]
    rw [map_cons, run_cons, hstep]
    exact ih (fun item' h => hitems item' (mem_cons_of_mem _ h)) (.inr rfl)

theorem actionsOn_ne_nil (hits : Hits) (x : LocalVar) : actionsOn hits x ≠ [] := by
  unfold actionsOn
  cases hits.filterMap (actionOn? x) with
  | nil | cons action found => exact cons_ne_nil _ _

/-- Every statement of a cleanup sequence is for a variable of the order. -/
theorem decl_of_mem_cleanupOf {hits : Hits} {exit : Span} {order : List LocalVar} {item : Cleanup}
    (h : item ∈ cleanupOf hits exit order) : item.decl ∈ order.map LocalVar.decl := by
  obtain ⟨x, hx, hitem⟩ := mem_flatMap.1 h
  obtain ⟨action, -, rfl⟩ := mem_map.1 hitem
  exact mem_map_of_mem hx

variable (hits : Hits) (exit : Span) {order : List LocalVar}

theorem run_cleanupOf_of_not_mem (hsettled : l.settle = l) (hd : d ∉ order.map LocalVar.decl) :
    run d l ((cleanupOf hits exit order).map .cleaned) = some l :=
  run_cleaned_other hsettled fun _ hitem e => hd (e ▸ decl_of_mem_cleanupOf hitem)

/-- A cleanup sequence cleans up each of its variables, with statements that stand together. -/
theorem run_cleanupOf_of_mem (hnodup : (order.map LocalVar.decl).Nodup)
    (hd : d ∈ order.map LocalVar.decl) :
    ∃ l, run d (.live block) ((cleanupOf hits exit order).map .cleaned) = some l ∧
      l.Done block := by
  induction order with
  | nil => contradiction
  | cons x xs ih =>
    obtain ⟨hfresh, hnodup⟩ := nodup_cons.1 hnodup
    have hsplit : cleanupOf hits exit (x :: xs) =
        cleanupOf hits exit [x] ++ cleanupOf hits exit xs := by
      simp only [cleanupOf, flatMap_cons, flatMap_nil, append_nil]
    rw [hsplit, map_append, run_append]
    by_cases hx : x.decl = d
    · -- its own statements stand together, and those behind are for others
      have hgroup : run d (.live block) ((cleanupOf hits exit [x]).map .cleaned) =
          some (.cleaning block) := by
        refine run_cleaned_self (fun item hitem => ?_) (.inl ⟨rfl, ?_⟩)
        · have hdecl := decl_of_mem_cleanupOf hitem
          rw [map_singleton, mem_singleton] at hdecl
          exact hdecl.trans hx
        · simpa [cleanupOf] using actionsOn_ne_nil hits x
      rw [hgroup]
      refine run_cleaned_done (.inl rfl) fun item hitem e => hfresh ?_
      rw [hx, ← e]
      exact decl_of_mem_cleanupOf hitem
    · have hother : run d (.live block) ((cleanupOf hits exit [x]).map .cleaned) =
          some (.live block) :=
        run_cleanupOf_of_not_mem hits exit rfl (by simpa using Ne.symm hx)
      rw [hother]
      refine ih hnodup ?_
      rw [map_cons, mem_cons] at hd
      exact hd.resolve_left (Ne.symm hx)

end Sequences

end Life

namespace Point

/-- The life of a variable at a point, apart from the cleanup immediately before the point. -/
def life (d : NodeId) (p : Point) : Life :=
  match p.scopeOf? d with
  | none => .dead
  | some block => .live block

variable {d : NodeId} {p : Point}

theorem settle_life : (p.life d).settle = p.life d := by
  unfold life
  cases p.scopeOf? d <;> rfl

theorem life_of_not_visible (h : d ∉ p.visible.map LocalVar.decl) : p.life d = .dead := by
  rw [life, scopeOf?_eq_none_iff.2 h]

theorem life_cons (sc : OpenScope) (outer : Point) :
    life d (sc :: outer) =
      if d ∈ sc.own.map LocalVar.decl then .live sc.head.block else life d outer := by
  unfold life
  rw [scopeOf?]
  by_cases hown : d ∈ sc.own.map LocalVar.decl
  · rw [if_pos hown, if_pos hown]
  · rw [if_neg hown, if_neg hown]

/-- Behind a statement, its own variable is alive too. -/
theorem life_advance (head : ScopeHead) (before rest : List Stmt) (s : Stmt) (outer : Point) :
    life d (⟨head, before ++ [s], rest⟩ :: outer) =
      if s.declared?.map LocalVar.decl = some d then .live head.block
      else life d (⟨head, before, s :: rest⟩ :: outer) := by
  rw [life_cons, life_cons, OpenScope.own_advance, map_append]
  cases s.declared? with
  | none => simp
  | some x =>
    by_cases hx : x.decl = d
    · simp [hx]
    · simp [hx, Ne.symm hx]

end Point

/-- What happened up to a point fits it: every visible variable is alive, up to the cleanup
immediately before the point, and no other one. -/
def Lived (h : List Event) (p : Point) : Prop :=
  ∀ d, ∃ l, Life.run d (p.life d) (p.cleanupRun.map .cleaned) = some l ∧
    Life.run d .dead h = some l

/-- After a `return` the variables of the scopes that are still to be left are cleaned up, and
all others are gone. -/
def Returned (h : List Event) (p : Point) : Prop :=
  ∀ d, ∃ l, Life.run d .dead h = some l ∧
    (p.scopeOf? d = none → l = .dead) ∧ ∀ block, p.scopeOf? d = some block → l.Done block

theorem lived_iff_of_quiet {h : List Event} {p : Point} (hquiet : p.cleanupRun = []) :
    Lived h p ↔ ∀ d, Life.run d .dead h = some (p.life d) := by
  refine forall_congr' fun d => ?_
  rw [hquiet]
  constructor
  · rintro ⟨l, hl, hrun⟩
    exact hrun.trans hl.symm
  · intro hrun
    exact ⟨p.life d, rfl, hrun⟩

section Steps

variable {ctx : Context} {errors : List CleanupError} {body : Block} {h : List Event}
  {p outer : Point} {s : Stmt} {head : ScopeHead} {before : List Stmt}

section Nested

variable (hids : (idsOfBlock body).Nodup) {sc : OpenScope} {d : NodeId}

include hids

/-- Leaving a scope does not touch the variables around it. -/
theorem Point.In.step_left_life (hin : Point.In body (sc :: outer)) (how : ExitKind) :
    (outer.life d).step d (.left sc.head.block how) = some (outer.life d) := by
  unfold Point.life
  cases hscope : outer.scopeOf? d with
  | none => rfl
  | some block => exact if_neg (hin.ne_of_scopeOf? hids hscope)

end Nested

/-- Behind a statement with blocks the same variables are alive as in front of it. -/
theorem Point.life_advance_of_blocks (hnext : p.next? = some s) (hs : s.blocks ≠ []) (d : NodeId) :
    p.advance.life d = p.life d := by
  obtain ⟨head, before, rest, outer, rfl⟩ := Point.next?_eq_some hnext
  rw [Point.advance, Point.life_advance, (Stmt.isCleanup_of_blocks hs).2.2]
  rfl

/-- At the end of a block without a `return` stands the cleanup of its variables. -/
theorem Point.Scheduled.cleanupRun_end {outer : Point}
    (h : Point.Scheduled ctx errors (⟨head, before, []⟩ :: outer))
    (hreturn : before.any Stmt.isReturn = false) :
    Point.cleanupRun (⟨head, before, []⟩ :: outer) =
      Point.exitCleanup ctx (⟨head, before, []⟩ :: outer) .fallOff
        (Cleanup.closingBrace head.span) := by
  refine h.exit .fallOff _ ?_
  simp [Point.exit?, endsWithReturn_of_any hreturn]

/-- In front of a `return` stands the cleanup of all visible variables. -/
theorem Point.Scheduled.cleanupRun_return {span : Span} {value : Option Expr}
    (h : p.Scheduled ctx errors) (hnext : p.next? = some (.ret span value)) :
    p.cleanupRun = p.exitCleanup ctx .ret span := by
  refine h.exit .ret span ?_
  obtain ⟨head, before, rest, outer, rfl⟩ := Point.next?_eq_some hnext
  rfl

variable (hids : (idsOfBlock body).Nodup)
  (hscheduled : ∀ {p : Point}, p.In body → p.Scheduled ctx errors)

include hscheduled in
theorem quiet_of_blocks (hin : p.In body) (hnext : p.next? = some s)
    (hs : s.blocks ≠ []) : p.cleanupRun = [] :=
  have hplain := Stmt.isCleanup_of_blocks hs
  (hscheduled hin).quiet s hnext hplain.1 hplain.2.1

include hids

/-- Cleanup of visible variables in an order runs for each of them as it should, and for no
other one. -/
theorem run_order (hin : p.In body) {order : List LocalVar} (hnodup : order.Nodup)
    (hvisible : ∀ x ∈ order, x ∈ p.visible) (hits : Hits) (exit : Span) (d : NodeId) :
    ∃ l, Life.run d (p.life d) ((cleanupOf hits exit order).map .cleaned) = some l ∧
      (d ∉ order.map LocalVar.decl → l = p.life d) ∧
      (d ∈ order.map LocalVar.decl → ∀ block, p.scopeOf? d = some block → l.Done block) := by
  by_cases hd : d ∈ order.map LocalVar.decl
  · -- visible variables with the same number are the same
    have hdecls : (order.map LocalVar.decl).Nodup := by
      refine hnodup.map_on fun x hx y hy => ?_
      exact inj_on_of_nodup_map (hin.nodup_visible hids) (hvisible x hx) (hvisible y hy)
    cases hscope : p.scopeOf? d with
    | none =>
      obtain ⟨x, hx, rfl⟩ := mem_map.1 hd
      exact absurd (mem_map_of_mem (hvisible x hx)) (Point.scopeOf?_eq_none_iff.1 hscope)
    | some block =>
      obtain ⟨l, hrun, hdone⟩ := Life.run_cleanupOf_of_mem hits exit hdecls hd
      have hlife : p.life d = .live block := by rw [Point.life, hscope]
      refine ⟨l, hlife ▸ hrun, fun h => absurd hd h, fun _ block' hblock' => ?_⟩
      exact Option.some.inj hblock' ▸ hdone
  · refine ⟨p.life d, ?_, fun _ => rfl, fun h => absurd h hd⟩
    exact Life.run_cleanupOf_of_not_mem hits exit Point.settle_life hd

/-- The cleanup of an exit runs for the variables that the exit takes out of scope, and for no
other one. -/
theorem run_exitCleanup (ctx : Context) (hin : p.In body) (kind : ExitKind) (exit : Span)
    (d : NodeId) :
    ∃ l, Life.run d (p.life d) ((p.exitCleanup ctx kind exit).map .cleaned) = some l ∧
      (d ∉ (p.leaving kind).map LocalVar.decl → l = p.life d) ∧
      (d ∈ (p.leaving kind).map LocalVar.decl →
        ∀ block, p.scopeOf? d = some block → l.Done block) := by
  obtain ⟨order, hnodup, hmem, heq⟩ := p.exitCleanup_eq ctx kind exit
  have hvisible : p.visible.Nodup := (hin.nodup_visible hids).of_map _
  have hdecls : d ∈ order.map LocalVar.decl ↔ d ∈ (p.leaving kind).map LocalVar.decl := by
    simp only [mem_map, hmem]
  rw [heq, ← hdecls]
  refine run_order hids hin (hnodup hvisible) (fun x hx => ?_) _ exit d
  exact p.leaving_subset_visible kind x ((hmem x).1 hx)

include hscheduled

theorem lived_step {rest : List Stmt} (hin : Point.In body (⟨head, before, s :: rest⟩ :: outer))
    (hevents : s.events? head.block = some events)
    (hlived : Lived h (⟨head, before, s :: rest⟩ :: outer)) :
    Lived (h ++ events) (⟨head, before ++ [s], rest⟩ :: outer) := by
  by_cases hcleanup : s.isCleanup = true
  · obtain ⟨item, rfl⟩ : ∃ item, s = .cleanup item := by
      cases s <;> simp_all [Stmt.isCleanup]
    obtain rfl : [.cleaned item] = events := Option.some.inj hevents
    have hrun : Point.cleanupRun (⟨head, before ++ [.cleanup item], rest⟩ :: outer) =
        Point.cleanupRun (⟨head, before, .cleanup item :: rest⟩ :: outer) ++ [item] :=
      trailingCleanup_append_cleanup before [item]
    intro d
    -- the sequence that the cleanup belongs to can be run, so its beginning can
    obtain ⟨kind, exit, later, hsequence⟩ := (hscheduled hin).cleanup item rfl
    obtain ⟨end', hend, -⟩ := run_exitCleanup hids ctx hin kind exit d
    rw [← hsequence, map_append, map_cons, append_cons, Life.run_append] at hend
    obtain ⟨l, hl, -⟩ := Option.bind_eq_some_iff.1 hend
    obtain ⟨l', hl', hh⟩ := hlived d
    refine ⟨l, ?_, ?_⟩
    · rw [Point.life_advance, hrun, map_append]
      exact hl
    · rw [Life.run_concat, hh, ← hl', ← Life.run_concat]
      exact hl
  · have hplain : s.isCleanup = false := eq_false_of_ne_true hcleanup
    have hreturn : s.isReturn = false := by
      cases s <;> first | rfl | contradiction
    have hbefore := (hscheduled hin).quiet s rfl hplain hreturn
    have hbehind : Point.cleanupRun (⟨head, before ++ [s], rest⟩ :: outer) = [] :=
      trailingCleanup_append_of_not before hplain
    rw [lived_iff_of_quiet hbefore] at hlived
    rw [lived_iff_of_quiet hbehind]
    intro d
    rw [Life.run_append, hlived d, Point.life_advance]
    cases s with
    | varDecl v =>
      obtain rfl : [.declared head.block v.id] = events := Option.some.inj hevents
      by_cases hv : v.id = d
      · have hfresh := hin.not_visible_of_next hids rfl (d := d) (hv ▸ mem_cons_self)
        rw [Point.life_of_not_visible hfresh]
        simp [Life.run, Life.step, Stmt.declared?, VarDecl.toLocal, hv]
      · have hstep := Life.step_declared_other hv
          (Point.life d (⟨head, before, .varDecl v :: rest⟩ :: outer)) head.block
        simp [Life.run, hstep, Stmt.declared?, VarDecl.toLocal, hv, Point.settle_life]
    | assign | call =>
      obtain rfl := Option.some.inj hevents
      simp [Life.run, Life.step_ran, Stmt.declared?, Point.settle_life]
    | defer =>
      obtain rfl := Option.some.inj hevents
      simp [Life.run, Life.step_deferred, Stmt.declared?, Point.settle_life]
    | _ => contradiction

omit hids in
theorem lived_test (span : Span) (hin : p.In body) (hnext : p.next? = some s) (hs : s.blocks ≠ [])
    (hlived : Lived h p) : Lived (h ++ [.ran span]) p := by
  have hquiet := quiet_of_blocks hscheduled hin hnext hs
  rw [lived_iff_of_quiet hquiet] at hlived ⊢
  intro d
  rw [Life.run_concat, hlived d, Option.bind_some, Life.step_ran, Point.settle_life]

theorem lived_enter {kind : ScopeKind} {loopVar : Option LocalVar} {b : Block} (hin : p.In body)
    (hnext : p.next? = some s) (hblock : (kind, loopVar, b) ∈ s.blocks) (hlived : Lived h p) :
    Lived (h ++ (loopVar.map LocalVar.decl).toList.map (.declared b.id))
      (p.enter kind loopVar b) := by
  have hquiet := quiet_of_blocks hscheduled hin hnext (ne_nil_of_mem hblock)
  have hstart : (p.enter kind loopVar b).cleanupRun = [] := rfl
  rw [lived_iff_of_quiet hquiet] at hlived
  rw [lived_iff_of_quiet hstart]
  intro d
  rw [Life.run_append, hlived d, Point.enter, Point.life_cons]
  cases loopVar with
  | none => rfl
  | some x =>
    have hfresh : x.decl ∉ p.visible.map LocalVar.decl := by
      refine hin.not_visible_of_next hids hnext ?_
      exact (Point.ids_blocks_sublist hblock).subset mem_cons_self
    by_cases hx : x.decl = d
    · subst hx
      rw [Point.life_of_not_visible hfresh]
      simp [Life.run, Life.step, OpenScope.own]
    · have hstep := Life.step_declared_other hx (p.life d) b.id
      simp [Life.run, hstep, OpenScope.own, Ne.symm hx, Point.settle_life]

theorem lived_leave (hin : Point.In body (⟨head, before, []⟩ :: outer))
    (hreturn : before.any Stmt.isReturn = false) (hlived : Lived h (⟨head, before, []⟩ :: outer)) :
    Lived (h ++ [.left head.block .fallOff]) outer.advance := by
  have hlife : ∀ d, outer.advance.life d = outer.life d := by
    rcases hin.outer with rfl | ⟨-, s, hnext, hblock⟩
    · exact fun _ => rfl
    · exact Point.life_advance_of_blocks hnext (ne_nil_of_mem hblock)
  have hexit := (hscheduled hin).cleanupRun_end hreturn
  rw [lived_iff_of_quiet hin.cleanupRun_outer]
  intro d
  obtain ⟨l, hl, hh⟩ := hlived d
  obtain ⟨l', hl', hother, hdone⟩ := run_exitCleanup hids ctx hin .fallOff
    (Cleanup.closingBrace head.span) d
  obtain rfl : l = l' := by
    rw [hexit, hl'] at hl
    exact (Option.some.inj hl).symm
  rw [Life.run_concat, hh, hlife]
  by_cases hown : d ∈ (Point.own (⟨head, before, []⟩ :: outer)).map LocalVar.decl
  · -- a variable of the scope is cleaned up, and gone behind it
    have hscope : Point.scopeOf? d (⟨head, before, []⟩ :: outer) = some head.block := if_pos hown
    have hgone := Point.life_of_not_visible (hin.not_visible_of_own hids hown)
    rw [hgone]
    exact Life.step_left_of_done (hdone hown head.block hscope) .fallOff
  · have hlife : Point.life d (⟨head, before, []⟩ :: outer) = outer.life d := by
      rw [Point.life_cons]
      exact if_neg hown
    rw [hother hown, hlife]
    exact hin.step_left_life hids .fallOff

omit hids in
theorem lived_skip (hin : p.In body) (hnext : p.next? = some s) (hs : s.blocks ≠ []) :
    Lived h p ↔ Lived h p.advance := by
  have hquiet := quiet_of_blocks hscheduled hin hnext hs
  have hbehind := Point.cleanupRun_advance hnext (Stmt.isCleanup_of_blocks hs).1
  rw [lived_iff_of_quiet hquiet, lived_iff_of_quiet hbehind]
  simp only [Point.life_advance_of_blocks hnext hs]

theorem returned_of_lived {span : Span} {value : Option Expr} (hin : p.In body)
    (hnext : p.next? = some (.ret span value)) (hlived : Lived h p) : Returned h p := by
  intro d
  obtain ⟨l, hl, hh⟩ := hlived d
  obtain ⟨l', hl', hother, hdone⟩ := run_exitCleanup hids ctx hin .ret span d
  have hexit := (hscheduled hin).cleanupRun_return hnext
  obtain rfl : l = l' := by
    rw [hexit, hl'] at hl
    exact (Option.some.inj hl).symm
  refine ⟨l, hh, fun hnone => ?_, fun block hsome => ?_⟩
  · have hhidden := Point.scopeOf?_eq_none_iff.1 hnone
    rw [hother hhidden]
    exact Point.life_of_not_visible hhidden
  · refine hdone (Decidable.of_not_not fun hhidden => ?_) block hsome
    rw [Point.scopeOf?_eq_none_iff.2 hhidden] at hsome
    contradiction

omit hscheduled in
theorem returned_leave {sc : OpenScope} (hin : Point.In body (sc :: outer))
    (hreturned : Returned h (sc :: outer)) : Returned (h ++ [.left sc.head.block .ret]) outer := by
  intro d
  obtain ⟨l, hh, hdead, hdone⟩ := hreturned d
  rw [Life.run_concat, hh]
  by_cases hown : d ∈ sc.own.map LocalVar.decl
  · have hscope : Point.scopeOf? d (sc :: outer) = some sc.head.block := if_pos hown
    have hgone : outer.scopeOf? d = none :=
      Point.scopeOf?_eq_none_iff.2 (hin.not_visible_of_own hids hown)
    refine ⟨.dead, Life.step_left_of_done (hdone _ hscope) .ret, fun _ => rfl,
      fun block hsome => ?_⟩
    rw [hgone] at hsome
    contradiction
  · have hscope : Point.scopeOf? d (sc :: outer) = outer.scopeOf? d := if_neg hown
    rw [hscope] at hdead hdone
    cases houter : outer.scopeOf? d with
    | none =>
      obtain rfl := hdead houter
      exact ⟨.dead, rfl, fun _ => rfl, fun _ h => nomatch h⟩
    | some block =>
      -- its own scope is further outside, and it stays cleaned up until that is left
      have hne := hin.ne_of_scopeOf? hids houter
      refine ⟨.cleaned block, Life.step_left_other_of_done (hdone block houter) hne .ret,
        fun h => (nomatch h), fun block' hsome => ?_⟩
      exact .inr (congrArg Life.cleaned (Option.some.inj hsome))

/-- The lives of the variables fit the points along every path. -/
theorem invariant_lived : Invariant body Lived Returned where
  step := lived_step hids hscheduled
  test := lived_test hscheduled
  enter := lived_enter hids hscheduled
  leave := lived_leave hids hscheduled
  skip hin hnext hblock _ := lived_skip hscheduled hin hnext (ne_nil_of_mem hblock)
  ret := returned_of_lived hids hscheduled
  leaveReturning := returned_leave hids

/-- On a path through a body all lives end well. -/
theorem run_path (hpath : body.Path events) (d : NodeId) :
    Life.run d .dead events = some .dead := by
  have hstart : Lived [] [⟨⟨body.id, body.span, .body, none⟩, [], body.stmts⟩] :=
    fun d => ⟨.dead, rfl, rfl⟩
  rcases (invariant_lived hids hscheduled).path hpath hstart with hend | hend
  · obtain ⟨l, hl, hrun⟩ := hend d
    exact hrun.trans hl.symm
  · obtain ⟨l, hrun, hdead, -⟩ := hend d
    exact hdead rfl ▸ hrun

end Steps

/-- On every path through a body of a scheduled source, each variable that is declared is cleaned
up once before control leaves its scope, and cleanup only runs for variables that are alive. -/
theorem locals_cleaned_once_on_paths (s : Source) (h : s.diagnostics.hasBlocking = false) :
    ∃ result errors,
      s.program.scheduleCleanup s.context s.diagnostics = (some result, errors) ∧
        ∀ body ∈ result.program.bodies, ∀ events, body.Path events →
          CleansEach events ∧ CleansOnlyLive events := by
  refine ⟨_, _, s.scheduleCleanup_eq h, ?_⟩
  intro body hbody events hpath
  have hlives : ∀ d, Life.run d .dead events = some .dead :=
    run_path (s.nodup_ids_planned hbody)
      (fun hin => s.scheduled_planned hbody (Point.mem_points_iff.2 hin)) hpath
  exact ⟨Life.cleansEach_of_run hlives, Life.cleansOnlyLive_of_run hlives⟩

/-- A source with a loop that may return in the middle. -/
def loopReturn : Source :=
  .ofText 0 "loop" ("fn main() \x7b int x = 1; for (i in range(3)) \x7b int y = i; " ++
    "if (x < y) \x7b return; \x7d defer release(y); \x7d \x7d").toList

theorem locals_cleaned_once_on_paths_loopReturn :
    loopReturn.diagnostics.hasBlocking = false ∧
      ∃ result errors,
        loopReturn.program.scheduleCleanup loopReturn.context loopReturn.diagnostics =
            (some result, errors) ∧
          ∀ body ∈ result.program.bodies,
            ∃ events, body.Path events ∧ CleansEach events ∧ CleansOnlyLive events := by
  have hclean : loopReturn.diagnostics.hasBlocking = false := by decide +kernel
  obtain ⟨result, errors, hresult, hpaths⟩ := locals_cleaned_once_on_paths loopReturn hclean
  refine ⟨hclean, result, errors, hresult, fun body hbody => ?_⟩
  have hpath := body.path_straightPath
  exact ⟨body.straightPath, hpath, hpaths body hbody _ hpath⟩

end DeferLang
