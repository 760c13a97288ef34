import DeferLang.Proofs.Point
import Mathlib.Data.List.Nodup

/-!
# The order of deferred variables

`deferOrder` is a function of the visible variables and of all the hits so far.
Here is how it changes when a variable is declared or hit once more: a new
variable goes to the back, and a hit variable moves to the front.
-/

namespace DeferLang

open List

section EraseDups

variable {α : Type} [DecidableEq α]

/-- The recursion of `eraseDups` goes to a filtered tail, so this one is on the length. -/
theorem eraseDups_filter (p : α → Bool) (l : List α) :
    (l.filter p).eraseDups = l.eraseDups.filter p := by
  cases l with
  | nil => rfl
  | cons a as =>
    have htail := eraseDups_filter p (as.filter fun b => !b == a)
    rw [eraseDups_cons]
    by_cases ha : p a = true
    · rw [filter_cons_of_pos ha, eraseDups_cons, filter_cons_of_pos ha, filter_comm, htail]
    · rw [filter_cons_of_neg ha, filter_cons_of_neg ha, ← htail, filter_filter]
      congr 1
      apply filter_congr
      intro b _
      by_cases hb : b = a
      · subst hb
        simpa using ha
      · simp [hb]
termination_by l.length
decreasing_by exact Nat.lt_succ_of_le (length_filter_le _ _)

theorem nodup_eraseDups (l : List α) : l.eraseDups.Nodup := by
  cases l with
  | nil => exact nodup_nil
  | cons a as =>
    rw [eraseDups_cons, nodup_cons]
    refine ⟨?_, nodup_eraseDups (as.filter fun b => !b == a)⟩
    rw [mem_eraseDups]
    simp
termination_by l.length
decreasing_by exact Nat.lt_succ_of_le (length_filter_le _ _)

theorem eraseDups_concat (l : List α) (a : α) :
    (l ++ [a]).eraseDups = if a ∈ l then l.eraseDups else l.eraseDups ++ [a] := by
  rw [eraseDups_append]
  by_cases ha : a ∈ l
  · rw [if_pos ha, List.removeAll, filter_cons_of_neg (by simpa using ha), filter_nil,
      eraseDups_nil, append_nil]
  · rw [if_neg ha, List.removeAll, filter_cons_of_pos (by simpa using ha), filter_nil]
    rfl

theorem lookup_eq_none_iff_not_mem {β : Type} (l : List (α × β)) (a : α) :
    l.lookup a = none ↔ a ∉ l.map Prod.fst := by
  rw [lookup_eq_none_iff]
  constructor
  · intro h hmem
    obtain ⟨p, hp, rfl⟩ := mem_map.1 hmem
    simpa using h p hp
  · intro h p hp
    have hne : a ≠ p.1 := fun e => h (e ▸ mem_map_of_mem hp)
    simpa using hne

end EraseDups

variable {visible : List LocalVar} {hits : Hits} {x : LocalVar}

@[simp]
theorem mem_deferOrder : x ∈ deferOrder visible hits ↔ x ∈ visible := by
  by_cases hx : x ∈ hits.map Prod.fst
  · simp only [deferOrder, mem_append, mem_eraseDups, mem_filter, hx, decide_eq_true_eq,
      not_true_eq_false, decide_false, Bool.false_eq_true, and_false, or_false, true_and]
  · simp only [deferOrder, mem_append, mem_eraseDups, mem_filter, hx,
      not_false_eq_true, decide_true, and_true, false_and, false_or]

theorem nodup_deferOrder (h : visible.Nodup) : (deferOrder visible hits).Nodup := by
  rw [deferOrder, nodup_append]
  refine ⟨nodup_eraseDups _, h.filter _, ?_⟩
  intro a ha b hb hab
  subst hab
  rw [mem_eraseDups, mem_filter] at ha
  rw [mem_filter, decide_eq_true_eq] at hb
  exact hb.2 ha.1

/-- A new variable goes to the back. -/
theorem deferOrder_declare (h : x ∉ hits.map Prod.fst) :
    deferOrder (visible ++ [x]) hits = deferOrder visible hits ++ [x] := by
  have hsame : (hits.map Prod.fst).filter (· ∈ visible ++ [x]) =
      (hits.map Prod.fst).filter (· ∈ visible) := by
    apply filter_congr
    intro y hy
    have hne : y ≠ x := fun e => h (e ▸ hy)
    simp [hne]
  have hnew : [x].filter (· ∉ hits.map Prod.fst) = [x] := by
    rw [filter_cons_of_pos (by simpa using h), filter_nil]
  rw [deferOrder, hsame, filter_append, hnew, ← append_assoc]
  rfl

/-- A visible variable that is hit moves to the front. -/
theorem deferOrder_hit (hv : visible.Nodup) (hx : x ∈ visible) (action : CleanupAction) :
    deferOrder visible ((x, action) :: hits) = x :: (deferOrder visible hits).erase x := by
  have hfront : (((x, action) :: hits).map Prod.fst).filter (· ∈ visible) =
      x :: (hits.map Prod.fst).filter (· ∈ visible) := by
    rw [map_cons, filter_cons_of_pos (by simpa using hx)]
  rw [(nodup_deferOrder hv).erase_eq_filter, deferOrder, hfront, eraseDups_cons,
    eraseDups_filter, deferOrder, filter_append, cons_append]
  congr 2
  rw [filter_filter]
  apply filter_congr
  intro y _
  by_cases hy : y = x
  · simp [hy]
  · simp only [map_cons, mem_cons, hy, false_or, bne_iff_ne.2 hy, Bool.true_and]

/-- A hit on a variable that is not visible changes nothing. -/
theorem deferOrder_skip (hx : x ∉ visible) (action : CleanupAction) :
    deferOrder visible ((x, action) :: hits) = deferOrder visible hits := by
  have hfront : (((x, action) :: hits).map Prod.fst).filter (· ∈ visible) =
      (hits.map Prod.fst).filter (· ∈ visible) := by
    rw [map_cons, filter_cons_of_neg (by simpa using hx)]
  rw [deferOrder, hfront, deferOrder]
  congr 1
  apply filter_congr
  intro y hy
  have hne : y ≠ x := fun e => hx (e ▸ hy)
  simp [hne]

namespace Point

/-- The variables that an exit takes out of scope. -/
def leaving (p : Point) : ExitKind → List LocalVar
  | .ret => p.visible
  | .fallOff => p.own

theorem leaving_subset_visible (p : Point) (kind : ExitKind) :
    ∀ x ∈ p.leaving kind, x ∈ p.visible := by
  intro x hx
  cases kind with
  | ret => exact hx
  | fallOff =>
    cases p with
    | nil => contradiction
    | cons sc outer => exact mem_append_right _ hx

/-- An exit cleans up the variables that it takes out of scope, each once. -/
theorem exitCleanup_eq (ctx : Context) (p : Point) (kind : ExitKind) (exit : Span) :
    ∃ order, (p.visible.Nodup → order.Nodup) ∧ (∀ x, x ∈ order ↔ x ∈ p.leaving kind) ∧
      p.exitCleanup ctx kind exit = cleanupOf (p.hits ctx) exit order := by
  cases kind with
  | ret => exact ⟨p.order ctx, nodup_deferOrder, fun _ => mem_deferOrder, rfl⟩
  | fallOff =>
    refine ⟨(p.order ctx).filter (· ∈ p.own), fun h => (nodup_deferOrder h).filter _, ?_, rfl⟩
    intro x
    have hsubset := p.leaving_subset_visible .fallOff x
    rw [mem_filter, order, mem_deferOrder, decide_eq_true_eq]
    exact ⟨And.right, fun hx => ⟨hsubset hx, hx⟩⟩

end Point

end DeferLang
