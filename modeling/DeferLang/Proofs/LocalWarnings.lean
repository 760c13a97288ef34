import DeferLang.Proofs.AssignmentTargets

/-!
# Warnings about local variables

Checking keeps two flags with each symbol and warns as it goes: about a variable that is
read while nothing is stored in it, and at the end of a block about its variables that
nothing used so far.  Both warnings are exact for the program as a whole.  Behind the end
of a block its variables are out of sight, so that what is unused there stays unused.
-/

namespace DeferLang

open List

namespace Point

section Along

variable {α : Type} {say say' : List Point → Point → List α} {points : List Point}

theorem filter_along (keep : α → Bool) (say : List Point → Point → List α)
    (before points : List Point) :
    (along say before points).filter keep =
      along (fun before q => (say before q).filter keep) before points := by
  induction points generalizing before with
  | nil => rfl
  | cons q points ih => rw [along, along, filter_append, ih]

theorem along_congr {before : List Point} (h : ∀ seen q rest, points = seen ++ q :: rest →
      say (before ++ seen) q = say' (before ++ seen) q) :
    along say before points = along say' before points := by
  induction points generalizing before with
  | nil => rfl
  | cons q points ih =>
    have hfirst := h [] q points rfl
    rw [append_nil] at hfirst
    rw [along, along, hfirst, ih]
    intro seen q' rest hpoints
    have hnext := h (q :: seen) q' rest (congrArg (q :: ·) hpoints)
    rwa [append_cons] at hnext

/-- What does not depend on the points before is said by each point alone. -/
theorem along_const (say : Point → List α) (before points : List Point) :
    along (fun _ => say) before points = points.flatMap say := by
  induction points generalizing before with
  | nil => rfl
  | cons q points ih => rw [along, ih, flatMap_cons]

end Along

variable (points : List Point) (table : SymbolTable) (before : List Point) (q : Point)

theorem code_of_mem_unsetErrors : ∀ e ∈ q.unsetErrors points table before, e.fault.code = 4018 := by
  intro e he
  obtain ⟨v, -, rfl⟩ := mem_map.1 he
  rfl

theorem code_of_mem_unusedErrors :
    ∀ e ∈ q.unusedErrors points table before, e.fault.code = 4005 := by
  rw [unusedErrors]
  cases q.closing? ((introduced points).map Prod.fst) with
  | none => exact forall_mem_nil _
  | some entry =>
    intro e he
    obtain ⟨id, -, he⟩ := mem_filterMap.1 he
    obtain ⟨symbol, -, he⟩ := Option.bind_eq_some_iff.1 he
    rw [Check.fault_of_unusedError? he, TypingFault.code]

theorem filter_unset_warnings :
    (q.warnings points table before).filter (·.fault.code = 4018) =
      q.unsetErrors points table before := by
  have hunused := code_of_mem_unusedErrors points table before q
  rw [warnings, filter_append, filter_eq_self.2, filter_eq_nil_iff.2, append_nil]
  · intro e he
    simp [hunused e he]
  · intro e he
    simp [code_of_mem_unsetErrors points table before q e he]

theorem filter_unused_warnings :
    (q.warnings points table before).filter (·.fault.code = 4005) =
      q.unusedErrors points table before := by
  rw [warnings, filter_append, filter_eq_nil_iff.2, filter_eq_self.2, nil_append]
  · intro e he
    simp [code_of_mem_unusedErrors points table before q e he]
  · intro e he
    simp [code_of_mem_unsetErrors points table before q e he]

end Point

section Program

variable {p : Program}

/-- A variable that ends at a point is not mentioned at a later point. -/
theorem not_mentions_of_end (hids : p.ids.Nodup) {before after : List Point} {q : Point}
    (hpoints : p.points = before ++ q :: after) (hend : q.next? = none) {x : LocalVar}
    (hx : x ∈ q.own) : p.points.any (Point.mentions x) = before.any (Point.mentions x) := by
  have hnodup : ([] ++ p.decls).Nodup := (nodup_decls hids).of_map
  have hpairs := ((Point.enclosed_bodies p.bodies).closed hnodup).1
  have hafter : after.any (Point.mentions x) = false := by
    refine any_eq_false.2 fun q' hq' => Bool.eq_false_iff.1 ?_
    change p.points.Pairwise _ at hpairs
    rw [hpoints] at hpairs
    have hhides := rel_of_pairwise_cons (pairwise_append.1 hpairs).2.1 hq'
    exact (Point.silent_of_not_visible (hhides hend x hx) []).1
  rw [hpoints, any_append, any_cons, hafter, (Point.silent_of_end hend x []).1,
    Bool.or_false, Bool.or_false]

/-- What is unused at the end of a block is unused in the program. -/
theorem unusedErrors_of_end (hids : p.ids.Nodup) {before after : List Point} {q : Point}
    (hpoints : p.points = before ++ q :: after) :
    q.unusedErrors p.points p.check.1.symbols before =
      q.unusedErrors p.points p.check.1.symbols p.points := by
  rw [Point.unusedErrors, Point.unusedErrors, map_fst_introduced_points]
  rcases q with _ | ⟨⟨head, body, _ | ⟨next, rest⟩⟩, outer⟩
  · rfl
  · refine filterMap_congr fun id hid => ?_
    obtain ⟨x, hx, rfl⟩ := mem_map.1 hid
    have hown := mem_of_mem_earliest hx
    have hmem : ⟨head, body, []⟩ :: outer ∈ p.points := by simp [hpoints]
    obtain ⟨symbol, hsymbol, hlocal, -⟩ := exists_symbol_of_mem_decls hids
      (mem_decls_of_mem_points hmem mem_cons_self hown)
    have hlocal : symbol.toLocal = x := hlocal
    rw [hsymbol, Option.bind_some, Option.bind_some, hlocal,
      not_mentions_of_end hids hpoints rfl hown]
  · rfl

theorem localWarningsIn_check (hids : p.ids.Nodup) :
    localWarningsIn p.check.2 =
      Point.along (Point.warnings p.points p.check.1.symbols) [] p.points :=
  (Check.leads_program hids rfl).1.warnings_eq p.check.1.symbols (prefix_refl _)

end Program

/-- The warnings about the local variables of a program are those that its points call for. -/
structure LocalsWarned (p : Program) (ctx : Context) (errors : List TypingError) : Prop where
  /-- The symbols are those of the declarations, in order. -/
  symbols_eq : ctx.symbols.symbols.map Symbol.toLocal = p.decls
  /-- A symbol is local if its variable is that of a declaration, and not that of a loop. -/
  local_iff : ∀ symbol ∈ ctx.symbols.symbols,
    symbol.kind = .local ↔ DeclaresLocal p.points symbol.toLocal
  /-- A variable expression resolves to the symbol of the variable that its name stands for. -/
  resolved : ∀ q ∈ p.points, ∀ v ∈ q.vars,
    ctx.resolve? v.1 = (q.lookup? v.2.name).map p.decls.idxOf
  /-- At the end of a block its local variables are reported that are the earliest of their name
  there, unless the name allows it or some variable expression of the program stands for them. -/
  unused_eq : errors.filter (·.fault.code = 4005) =
    p.points.flatMap (Point.unusedErrors p.points ctx.symbols p.points)
  /-- A variable that is read is reported if it was declared without a value, unless it is an object
  or some earlier statement stores in it. -/
  unset_eq : errors.filter (·.fault.code = 4018) =
    Point.along (Point.unsetErrors p.points ctx.symbols) [] p.points

/-- Parsed programs get exactly the warnings about unused variables, and about variables that are
read before anything is stored in them, also if there are errors. -/
theorem localsWarned_parseProgram (ts : List Token) :
    LocalsWarned (parseProgram ts).1 (parseProgram ts).1.check.1
      (parseProgram ts).1.check.2 := by
  have hids := nodup_ids_parseProgram ts
  generalize (parseProgram ts).1 = p at hids ⊢
  have hcode (code : Nat) (hcode : code = 4005 ∨ code = 4018) :
      p.check.2.filter (·.fault.code = code) = Point.along (fun before q =>
        (q.warnings p.points p.check.1.symbols before).filter (·.fault.code = code)) []
          p.points := by
    rw [← Point.filter_along, ← localWarningsIn_check hids, localWarningsIn, List.filter_filter]
    refine List.filter_congr fun e _ => ?_
    rcases hcode with rfl | rfl <;> simp +contextual
  constructor
  · rw [← map_fst_introduced_points, ← flagged_check hids, List.map_map]
    rfl
  · exact fun symbol hsymbol => ((Check.leads_program hids rfl).2.notes symbol hsymbol).local_iff
  · exact fun q hq v hv => resolve?_check hids hq hv
  · rw [hcode 4005 (.inl rfl), ← Point.along_const _ []]
    refine Point.along_congr fun before q after hpoints => ?_
    rw [List.nil_append, Point.filter_unused_warnings]
    exact unusedErrors_of_end hids hpoints
  · rw [hcode 4018 (.inr rfl)]
    simp only [Point.filter_unset_warnings]

end DeferLang
