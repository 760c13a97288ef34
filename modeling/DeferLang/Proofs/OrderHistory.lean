import DeferLang.Proofs.DeferOrder
import Mathlib.Data.List.DropRight

/-!
# Orders as a function of what was done to them

The cleanup orders of a scope come from a fresh scope by steps: a scope is opened inside,
a variable is declared, or one is brought to the front.  Whatever the steps are, both
orders of a scope are the same list, and bringing a variable to the front moves its first
occurrence only.

If no variable is declared twice, the steps alone tell the order (`recentFirst`): the
variables that were brought to the front since they were declared come first, the latest
in front, and behind them the others as they were declared.  Nothing is said about the
actions that clean a variable up.
-/

namespace DeferLang

open List

/-- A step that is done to the orders of a scope. -/
inductive OrderStep where
  | nested (block : NodeId) (span : Span) (kind : ScopeKind)
  | declare (var : SymbolId)
  | bump (var : SymbolId)
  | apply (effect : DeferEffect)

namespace OrderStep

/-- The orders behind a step. -/
def run (t : ScopeCleanup) : OrderStep → ScopeCleanup
  | .nested block span kind => t.nested block span kind
  | .declare var => t.declare var
  | .bump var => t.bump var
  | .apply effect => t.apply effect

def isNested : OrderStep → Bool
  | .nested _ _ _ => true
  | _ => false

/-- The variable that a step declares. -/
def declared? : OrderStep → Option SymbolId
  | .declare var => some var
  | _ => none

/-- The variable that a step brings to the front. -/
def bumped? : OrderStep → Option SymbolId
  | .bump var => some var
  | .apply effect => some effect.var
  | _ => none

end OrderStep

/-- The orders behind steps from given ones on. -/
def ScopeCleanup.after (t : ScopeCleanup) (steps : List OrderStep) : ScopeCleanup :=
  steps.foldl OrderStep.run t

/-- The variables that steps declare, in order. -/
def declaredBy (steps : List OrderStep) : List SymbolId :=
  steps.filterMap OrderStep.declared?

/-- The variables that steps bring to the front, in order and each as often as it is. -/
def bumpedBy (steps : List OrderStep) : List SymbolId :=
  steps.filterMap OrderStep.bumped?

/-- Whether a variable was brought to the front after it was declared. -/
def bumpedSince (steps : List OrderStep) (var : SymbolId) : Bool :=
  var ∈ bumpedBy (steps.dropWhile (·.declared? ≠ some var))

/-- The variables brought to the front since they were declared, the latest first, and then the
others as they were declared. -/
def recentFirst (steps : List OrderStep) : List SymbolId :=
  (bumpedBy steps).reverse.eraseDups.filter (bumpedSince steps) ++
    (declaredBy steps).filter (!bumpedSince steps ·)

/-- The second list is the first with the first occurrence of a variable moved to the front. -/
def MovesToFront (var : SymbolId) (order order' : List SymbolId) : Prop :=
  (var ∉ order ∧ order' = order) ∨
    ∃ front back, var ∉ front ∧ order = front ++ var :: back ∧ order' = var :: (front ++ back)

section Bump

variable {var : SymbolId} {order : List SymbolId}

theorem movesToFront_bumpToFront (var : SymbolId) (order : List SymbolId) :
    MovesToFront var order (bumpToFront var order) := by
  unfold bumpToFront
  by_cases hmem : var ∈ order
  · obtain ⟨front, back, hfront, horder, herase⟩ := exists_erase_eq hmem
    rw [if_pos hmem, herase]
    exact .inr ⟨front, back, hfront, horder, rfl⟩
  · rw [if_neg hmem]
    exact .inl ⟨hmem, rfl⟩

theorem bumpToFront_of_head? (h : order.head? = some var) : bumpToFront var order = order := by
  obtain ⟨rest, rfl⟩ := List.head?_eq_some_iff.1 h
  rw [bumpToFront, if_pos mem_cons_self, erase_cons_head]

theorem bumpToFront_of_not_mem (h : var ∉ order) : bumpToFront var order = order :=
  if_neg h

theorem bumpToFront_twice (var : SymbolId) (order : List SymbolId) :
    bumpToFront var (bumpToFront var order) = bumpToFront var order := by
  by_cases hmem : var ∈ order
  · have hhead : (bumpToFront var order).head? = some var := by
      rw [bumpToFront, if_pos hmem, List.head?_cons]
    exact bumpToFront_of_head? hhead
  · rw [bumpToFront_of_not_mem hmem, bumpToFront_of_not_mem hmem]

end Bump

section Steps

variable {t : ScopeCleanup} {steps : List OrderStep} {step : OrderStep} {var v : SymbolId}

theorem ScopeCleanup.after_concat (t : ScopeCleanup) (steps : List OrderStep) (step : OrderStep) :
    t.after (steps ++ [step]) = step.run (t.after steps) := by
  simp [ScopeCleanup.after]

theorem declaredBy_concat (steps : List OrderStep) (step : OrderStep) :
    declaredBy (steps ++ [step]) = declaredBy steps ++ step.declared?.toList := by
  cases step <;> simp [declaredBy, OrderStep.declared?]

theorem bumpedBy_concat (steps : List OrderStep) (step : OrderStep) :
    bumpedBy (steps ++ [step]) = bumpedBy steps ++ step.bumped?.toList := by
  cases step <;> simp [bumpedBy, OrderStep.bumped?]

theorem mem_declaredBy : var ∈ declaredBy steps ↔ ∃ step ∈ steps, step.declared? = some var :=
  mem_filterMap

/-- What was not declared was not brought to the front since. -/
theorem mem_declaredBy_of_bumpedSince (h : bumpedSince steps var = true) :
    var ∈ declaredBy steps := by
  rw [mem_declaredBy]
  by_contra hnone
  have hdrop : steps.dropWhile (·.declared? ≠ some var) = [] := by
    rw [dropWhile_eq_nil_iff]
    exact fun step hstep => decide_eq_true fun hdeclared => hnone ⟨step, hstep, hdeclared⟩
  rw [bumpedSince, hdrop] at h
  contradiction

/-- A variable counts as brought to the front since its declaration from the first time on. -/
theorem bumpedSince_concat (steps : List OrderStep) (step : OrderStep) (var : SymbolId) :
    bumpedSince (steps ++ [step]) var =
      (bumpedSince steps var || decide (step.bumped? = some var ∧ var ∈ declaredBy steps)) := by
  by_cases hdeclared : var ∈ declaredBy steps
  · obtain ⟨s, hs, hvar⟩ := mem_declaredBy.1 hdeclared
    have hdrop : (steps ++ [step]).dropWhile (·.declared? ≠ some var) =
        steps.dropWhile (·.declared? ≠ some var) ++ [step] := by
      rw [dropWhile_append, if_neg]
      rw [List.isEmpty_iff, List.dropWhile_eq_nil_iff]
      exact fun hall => absurd hvar (of_decide_eq_true (hall s hs))
    rw [bumpedSince, hdrop, bumpedBy_concat]
    simp [bumpedSince, hdeclared, Bool.decide_or]
  · -- the declaration, if there is one, is the last step
    have hold : bumpedSince steps var = false :=
      Bool.eq_false_iff.2 fun h => hdeclared (mem_declaredBy_of_bumpedSince h)
    have hall : ∀ s ∈ steps, decide (s.declared? ≠ some var) = true := fun s hs =>
      decide_eq_true fun hvar => hdeclared (mem_declaredBy.2 ⟨s, hs, hvar⟩)
    have hnew : bumpedSince (steps ++ [step]) var = false := by
      rw [bumpedSince, dropWhile_append_of_pos hall]
      by_cases hstep : step.declared? = some var
      · have hbumped : step.bumped? = none := by
          cases step with
          | declare _ => rfl
          | _ => contradiction
        simp [hstep, bumpedBy, hbumped]
      · simp [hstep, bumpedBy]
    rw [hnew, hold]
    simp [hdeclared]

theorem mem_bumpedBy_of_bumpedSince (h : bumpedSince steps var = true) : var ∈ bumpedBy steps :=
  ((dropWhile_suffix _).sublist.filterMap _).subset (of_decide_eq_true h)

@[simp] theorem mem_recentFirst : var ∈ recentFirst steps ↔ var ∈ declaredBy steps := by
  rw [recentFirst, mem_append, mem_filter, mem_filter, mem_eraseDups, mem_reverse]
  constructor
  · rintro (⟨-, hsince⟩ | ⟨hdeclared, -⟩)
    · exact mem_declaredBy_of_bumpedSince hsince
    · exact hdeclared
  · intro hdeclared
    cases hsince : bumpedSince steps var with
    | true => exact .inl ⟨mem_bumpedBy_of_bumpedSince hsince, rfl⟩
    | false => exact .inr ⟨hdeclared, rfl⟩

theorem nodup_recentFirst (h : (declaredBy steps).Nodup) : (recentFirst steps).Nodup := by
  rw [recentFirst, nodup_append]
  refine ⟨(nodup_eraseDups _).filter _, h.filter _, ?_⟩
  rintro a ha b hb rfl
  rw [mem_filter] at ha hb
  simp [ha.2] at hb

/-- A new variable goes to the back. -/
theorem recentFirst_declare (h : var ∉ declaredBy steps) :
    recentFirst (steps ++ [.declare var]) = recentFirst steps ++ [var] := by
  have hsince : bumpedSince (steps ++ [.declare var]) = bumpedSince steps := by
    funext v
    simp [bumpedSince_concat, OrderStep.bumped?]
  have hnew : bumpedSince steps var = false :=
    Bool.eq_false_iff.2 fun hsince => h (mem_declaredBy_of_bumpedSince hsince)
  have hfilter : [var].filter (!bumpedSince steps ·) = [var] := by simp [hnew]
  rw [recentFirst, hsince, bumpedBy_concat, declaredBy_concat]
  simp only [OrderStep.bumped?, OrderStep.declared?, Option.toList_none, Option.toList_some,
    append_nil, filter_append, hfilter, recentFirst, append_assoc]

/-- A variable that is declared moves to the front, and any other changes nothing. -/
theorem recentFirst_bump (hnodup : (declaredBy steps).Nodup) (hbumped : step.bumped? = some var)
    (hdeclared : step.declared? = none) :
    recentFirst (steps ++ [step]) = bumpToFront var (recentFirst steps) := by
  have hrecent : (bumpedBy (steps ++ [step])).reverse.eraseDups =
      var :: (bumpedBy steps).reverse.eraseDups.filter (!· == var) := by
    rw [bumpedBy_concat, hbumped, Option.toList_some, reverse_append, reverse_singleton,
      singleton_append, eraseDups_cons, eraseDups_filter]
  have hsame : declaredBy (steps ++ [step]) = declaredBy steps := by
    rw [declaredBy_concat, hdeclared, Option.toList_none, append_nil]
  have hsince (v : SymbolId) : bumpedSince (steps ++ [step]) v =
      (bumpedSince steps v || decide (v = var ∧ v ∈ declaredBy steps)) := by
    rw [bumpedSince_concat, hbumped]
    simp [eq_comm]
  by_cases hvar : var ∈ declaredBy steps
  · rw [bumpToFront, if_pos (mem_recentFirst.2 hvar), (nodup_recentFirst hnodup).erase_eq_filter,
      recentFirst, hrecent, hsame, filter_cons_of_pos (by simp [hsince, hvar]), cons_append,
      recentFirst, filter_append, filter_filter, filter_filter, filter_filter]
    congr 2
    · refine filter_congr fun v _ => ?_
      by_cases hv : v = var <;> simp [hsince, hv, bne, Bool.and_comm]
    · refine filter_congr fun v _ => ?_
      by_cases hv : v = var <;> simp [hsince, hv, hvar]
  · have hnever : bumpedSince steps var = false :=
      Bool.eq_false_iff.2 fun h => hvar (mem_declaredBy_of_bumpedSince h)
    have hstays : bumpedSince (steps ++ [step]) = bumpedSince steps := by
      funext v
      by_cases hv : v = var <;> simp [hsince, hv, hvar]
    rw [bumpToFront_of_not_mem (mt mem_recentFirst.1 hvar), recentFirst, hrecent, hsame, hstays,
      filter_cons_of_neg (by simp [hnever]), filter_filter, recentFirst]
    congr 1
    refine filter_congr fun v _ => ?_
    by_cases hv : v = var <;> simp [hv, hnever]

end Steps

section Histories

variable {t : ScopeCleanup}

/-- Steps keep both orders of a scope the same. -/
theorem scopeEndOrder_after (h : t.scopeEndOrder = t.returnOrder) (steps : List OrderStep) :
    (t.after steps).scopeEndOrder = (t.after steps).returnOrder := by
  induction steps generalizing t with
  | nil => exact h
  | cons step steps ih =>
    refine ih ?_
    cases step with
    | nested block span kind => rfl
    | declare var => exact congrArg (· ++ [var]) h
    | bump var => exact congrArg (bumpToFront var) h
    | apply effect => exact congrArg (bumpToFront effect.var) h

/-- The variables of a scope are those declared since it was opened. -/
theorem locals_after (h : t.locals = []) (steps : List OrderStep) :
    (t.after steps).locals = declaredBy (steps.rtakeWhile (!·.isNested)) := by
  induction steps using List.reverseRecOn with
  | nil => exact h
  | append_singleton steps step ih =>
    rw [t.after_concat]
    cases step with
    | nested block span kind =>
      rw [rtakeWhile_concat_neg _ _ _ (by simp [OrderStep.isNested])]
      rfl
    | declare var =>
      rw [rtakeWhile_concat_pos _ _ _ rfl, declaredBy_concat, ← ih]
      rfl
    | bump var | apply effect =>
      rw [rtakeWhile_concat_pos _ _ _ rfl, declaredBy_concat, ← ih]
      exact (append_nil _).symm

/-- Without a second declaration of a variable, the steps tell the order. -/
theorem returnOrder_after (h : t.returnOrder = []) (steps : List OrderStep)
    (hnodup : (declaredBy steps).Nodup) : (t.after steps).returnOrder = recentFirst steps := by
  induction steps using List.reverseRecOn with
  | nil => exact h
  | append_singleton steps step ih =>
    rw [declaredBy_concat, nodup_append] at hnodup
    obtain ⟨hbefore, -, hfresh⟩ := hnodup
    have hold := ih hbefore
    rw [t.after_concat]
    cases step with
    | nested block span kind =>
      have hsince : bumpedSince (steps ++ [.nested block span kind]) = bumpedSince steps := by
        funext v
        simp [bumpedSince_concat, OrderStep.bumped?]
      rw [recentFirst, hsince, bumpedBy_concat, declaredBy_concat]
      simpa [OrderStep.run, ScopeCleanup.nested, OrderStep.bumped?, OrderStep.declared?,
        recentFirst] using hold
    | declare var =>
      have hvar : var ∉ declaredBy steps := fun hmem =>
        hfresh var hmem var mem_cons_self rfl
      rw [recentFirst_declare hvar, ← hold]
      rfl
    | bump var | apply effect =>
      rw [recentFirst_bump hbefore rfl rfl, ← hold]
      rfl

end Histories

/-- Whatever is done to the orders of a scope and of the scopes inside it, both orders are one list;
falling off the end of a scope cleans up what was declared since it was opened, in that order; and
bringing a variable to the front moves its first occurrence and changes nothing else, and nothing at
all if the variable is in front or not there.  If no variable is declared twice, none is cleaned up
twice, and those brought to the front since they were declared come first, the latest in front, then
the others as they were declared. -/
theorem orders_follow_history (block : NodeId) (span : Span) (kind : ScopeKind)
    (steps : List OrderStep) :
    let t := ScopeCleanup.after { block, span, kind } steps
    t.scopeEndOrder = t.returnOrder ∧
      t.fallOffOrder = t.returnOrder.filter (· ∈ t.locals) ∧
      t.locals = declaredBy (steps.rtakeWhile (!·.isNested)) ∧
      (∀ var, ∃ order, MovesToFront var t.returnOrder order ∧
        t.bump var = { t with returnOrder := order, scopeEndOrder := order } ∧
        (var ∉ t.returnOrder ∨ t.returnOrder.head? = some var → t.bump var = t) ∧
        (t.bump var).bump var = t.bump var) ∧
      ((declaredBy steps).Nodup → t.returnOrder.Nodup ∧ t.returnOrder = recentFirst steps) := by
  intro t
  have hsame : t.scopeEndOrder = t.returnOrder := scopeEndOrder_after rfl steps
  have hbump (var : SymbolId) : t.bump var = { t with
      returnOrder := bumpToFront var t.returnOrder
      scopeEndOrder := bumpToFront var t.returnOrder } := by
    rw [ScopeCleanup.bump, hsame]
  refine ⟨hsame, ?_, locals_after rfl steps, fun var => ?_, fun hnodup => ?_⟩
  · rw [ScopeCleanup.fallOffOrder, hsame]
    rfl
  · refine ⟨_, movesToFront_bumpToFront var t.returnOrder, hbump var, fun hstill => ?_, ?_⟩
    · have horder : bumpToFront var t.returnOrder = t.returnOrder :=
        hstill.elim bumpToFront_of_not_mem bumpToFront_of_head?
      rw [hbump, horder]
      exact congrArg (fun order => { t with scopeEndOrder := order }) hsame.symm
    · simp only [ScopeCleanup.bump, bumpToFront_twice]
  · have horder : t.returnOrder = recentFirst steps := returnOrder_after rfl steps hnodup
    exact ⟨horder ▸ nodup_recentFirst hnodup, horder⟩

/-- Variable 1 is brought to the front before it is declared, which counts for nothing, and 2 twice;
the scope that is opened in between has 3 and 4 of its own. -/
theorem orders_follow_history_nested :
    let steps : List OrderStep := [.bump 1, .declare 1, .declare 2, .nested 7 ⟨0, 0⟩ .block,
      .declare 3, .bump 2, .declare 4, .bump 4, .bump 2, .apply ⟨9, ⟨4, 1⟩, .destructor⟩]
    (declaredBy steps).Nodup ∧ recentFirst steps = [2, 4, 1, 3] ∧
      (ScopeCleanup.after ⟨0, ⟨0, 0⟩, .body, false, [], [], [], [], []⟩ steps).returnOrder =
        recentFirst steps :=
  ⟨by decide, by decide, ((orders_follow_history 0 ⟨0, 0⟩ .body _).2.2.2.2 (by decide)).2⟩

end DeferLang
