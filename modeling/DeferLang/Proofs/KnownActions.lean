import DeferLang.Cleanup.Schedule

/-!
# The actions that a scope knows

Whatever holds of a destruction, of a release and of every deferred call holds of
all actions that planning keeps: `ScopeCleanup.Knows` follows such a property
through the steps of planning, up to the cleanup at an exit.
-/

namespace DeferLang

open List

variable {A B : CleanupAction → Prop} {t : ScopeCleanup}

namespace ScopeCleanup

/-- All actions that a scope knows have a property: those on its variables, and those for the
scopes around it. -/
structure Knows (A : CleanupAction → Prop) (t : ScopeCleanup) : Prop where
  registered : ∀ entry ∈ t.registered, A entry.2
  inherited : ∀ e ∈ t.inherited, A e.action

namespace Knows

theorem imp (h : t.Knows A) (hAB : ∀ action, A action → B action) : t.Knows B :=
  ⟨fun entry hentry => hAB _ (h.registered entry hentry), fun e he => hAB _ (h.inherited e he)⟩

theorem declare (h : t.Knows A) (var : SymbolId) : (t.declare var).Knows A :=
  ⟨h.registered, h.inherited⟩

theorem noteReturn (h : t.Knows A) (inner : ScopeCleanup) : (t.noteReturn inner).Knows A :=
  ⟨h.registered, h.inherited⟩

theorem apply (h : t.Knows A) {e : DeferEffect} (he : A e.action) : (t.apply e).Knows A :=
  ⟨forall_mem_cons.2 ⟨he, h.registered⟩, h.inherited⟩

theorem inherit (h : t.Knows A) {e : DeferEffect} (he : A e.action) : (t.inherit e).Knows A := by
  unfold ScopeCleanup.inherit
  split
  · exact h
  · exact ⟨h.registered, forall_mem_append.2 ⟨h.inherited, forall_mem_singleton.2 he⟩⟩

theorem applyAll (h : t.Knows A) {es : List DeferEffect} (hes : ∀ e ∈ es, A e.action) :
    (t.applyAll es).Knows A := by
  unfold ScopeCleanup.applyAll
  induction es generalizing t with
  | nil => exact h
  | cons e es ih =>
    rw [forall_mem_cons] at hes
    exact ih ((h.apply hes.1).inherit hes.1) hes.2

theorem replay (h : t.Knows A) {es : List DeferEffect} (hes : ∀ e ∈ es, A e.action) :
    (t.replay es).Knows A := by
  unfold ScopeCleanup.replay
  induction es generalizing t with
  | nil => exact h
  | cons e es ih =>
    rw [forall_mem_cons] at hes
    rw [foldl_cons]
    refine ih ?_ hes.2
    split
    · exact h.apply hes.1
    · exact (h.apply hes.1).inherit hes.1

/-- A variable is destroyed, or cleaned up by actions that are registered on it. -/
theorem actions (h : t.Knows A) (hdestructor : A .destructor) (var : SymbolId)
    {action : CleanupAction} (haction : action ∈ t.actions var) : A action := by
  unfold ScopeCleanup.actions at haction
  split at haction
  · rwa [mem_singleton.1 haction]
  · obtain ⟨⟨v, found⟩, hentry, hsome⟩ := mem_filterMap.1 haction
    by_cases hv : v = var
    · simp only [hv, if_true, Option.some.injEq] at hsome
      exact hsome ▸ h.registered (v, found) hentry
    · simp [hv] at hsome

theorem sequence (h : t.Knows A) (hdestructor : A .destructor) (ctx : Context)
    {order : List SymbolId} {exit : Span} {item : Cleanup}
    (hitem : item ∈ Cleanup.sequence ctx t order exit) : A item.action := by
  obtain ⟨var, -, hitem⟩ := mem_flatMap.1 hitem
  split at hitem
  · contradiction
  · obtain ⟨action, haction, rfl⟩ := mem_map.1 hitem
    exact h.actions hdestructor var haction

end Knows

end ScopeCleanup

/-- The call itself is the only deferred action among the effects of a `defer`. -/
theorem action_deferEffects (ctx : Context) {call : Call} {vars : List (SymbolId × Span)}
    (hcall : A (.deferred call)) (hreleased : ∀ owner, A (.releasedBy owner)) :
    ∀ e ∈ Cleanup.deferEffects ctx call vars, A e.action := by
  intro e he
  cases vars with
  | nil => contradiction
  | cons var others =>
    rcases mem_append.1 he with hmem | hmem
    · rw [mem_reverse] at hmem
      obtain ⟨other, -, rfl⟩ := mem_map.1 hmem
      exact hreleased _
    · rw [mem_singleton.1 hmem]
      exact hcall

theorem knows_planDefer (ctx : Context) (h : t.Knows A) {call : Call}
    (hcall : A (.deferred call)) (hreleased : ∀ owner, A (.releasedBy owner))
    (returnFollows : Bool) : (Cleanup.planDefer ctx t call returnFollows).1.Knows A := by
  unfold Cleanup.planDefer
  dsimp only
  split
  · exact h
  · split
    · exact h.applyAll (action_deferEffects ctx hcall hreleased)
    · exact h

theorem knows_entryOrders {outer : Option ScopeCleanup} (h : ∀ t ∈ outer, t.Knows A)
    (block : NodeId) (span : Span) (kind : ScopeKind) (loopVar : Option SymbolId) :
    (Cleanup.entryOrders outer block span kind loopVar).Knows A := by
  cases outer with
  | none =>
    have hstart : ({ block, span, kind } : ScopeCleanup).Knows A :=
      ⟨fun _ hentry => by contradiction, fun _ he => by contradiction⟩
    cases loopVar with
    | none => exact hstart
    | some var => exact hstart.declare var
  | some t =>
    have hstart : (t.nested block span kind).Knows A :=
      ⟨(h t rfl).registered, fun _ he => by contradiction⟩
    cases loopVar with
    | none => exact hstart
    | some var => exact hstart.declare var

end DeferLang
