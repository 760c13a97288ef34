import DeferLang.Proofs.ExitCleanup

/-!
# Scheduling a program once more

Planning looks at a program without its cleanup: what it makes of a body, and
whether the tables cover the body, depends on the bare form alone.  A program that
was scheduled has the bare form of the program it was made from, so scheduling it
once more gives the same result.
-/

namespace DeferLang

open Cleanup List

section Plan

variable (ctx : Context)

/-- Planning passes over cleanup, and so does the search for a `return`. -/
theorem passesCleanup_plan : PassesCleanup fun ss ss' =>
    (∀ t, planStmts ctx t ss = planStmts ctx t ss') ∧
      ss.any Stmt.isReturn = ss'.any Stmt.isReturn where
  nil := ⟨fun _ => rfl, rfl⟩
  cons h hss := by
    cases h <;>
      simp only [planStmts, planStmt, planBlock, any_cons, Stmt.isReturn, implies_true, and_self, *]
  cleanup _ _ _ h := ⟨fun t => h.1 t, h.2⟩

theorem planBlock_bareBlock (outer : Option ScopeCleanup) (kind : ScopeKind)
    (loopVar : Option SymbolId) (b : BlockOf Stmt) :
    planBlock ctx outer kind loopVar (bareBlock b) =
      planBlock ctx outer kind loopVar b := by
  obtain ⟨_, _, stmts⟩ := b
  rw [bareBlock, planBlock, (passesCleanup_plan ctx).stmts stmts |>.1, planBlock]

theorem planBody_bareBlock (body : Block) :
    planBody ctx (bareBlock body) = planBody ctx body :=
  planBlock_bareBlock ctx none .body none body

end Plan

section Covers

variable (c : Context)

/-- Tables cover statements exactly if they cover them without cleanup. -/
theorem passesCleanup_covers :
    PassesCleanup fun ss ss' => c.coversStmts ss = c.coversStmts ss' where
  nil := rfl
  cons h hss := by
    cases h <;>
      simp only [Context.coversStmts, Context.coversStmt, Context.coversBlock, *]
  cleanup _ _ _ h := h

theorem coversBlock_bareBlock (b : BlockOf Stmt) :
    c.coversBlock (bareBlock b) = c.coversBlock b := by
  obtain ⟨_, _, stmts⟩ := b
  rw [bareBlock, Context.coversBlock, (passesCleanup_covers c).stmts stmts, Context.coversBlock]

end Covers

section Programs

/-- The definition of a special member without cleanup. -/
def CtorBody.bare : CtorBody → CtorBody
  | .body block => .body (bareBlock block)
  | .defaulted => .defaulted
  | .deleted => .deleted

/-- A special member without cleanup. -/
def CtorDecl.bare (c : CtorDecl) : CtorDecl :=
  { c with body := c.body.bare }

/-- A class without cleanup. -/
def ClassDef.bare (c : ClassDef) : ClassDef :=
  { c with ctors := c.ctors.map CtorDecl.bare }

/-- A function without cleanup. -/
def Function.bare (f : Function) : Function :=
  { f with body := bareBlock f.body }

/-- A program without cleanup. -/
def Program.bare (p : Program) : Program :=
  { p with functions := p.functions.map Function.bare, classes := p.classes.map ClassDef.bare }

variable (ctx : Context)

theorem planCtor_bare (name : String) (c : CtorDecl) :
    (planCtor ctx name c).1.bare = c.bare ∧
      planCtor ctx name c.bare = planCtor ctx name c := by
  obtain ⟨span, kind, isExplicit, body⟩ := c
  cases body with
  | defaulted | deleted => exact ⟨rfl, rfl⟩
  | body block =>
    constructor
    · exact congrArg (fun b => CtorDecl.mk span kind isExplicit (.body b))
        (bareBlock_planBody ctx block)
    · simp only [planCtor, CtorDecl.bare, CtorBody.bare, planBody_bareBlock]

theorem planClass_bare (c : ClassDef) :
    (planClass ctx c).1.bare = c.bare ∧
      planClass ctx c.bare = planClass ctx c := by
  constructor
  · simp only [planClass, ClassDef.bare, map_map]
    congr 1
    exact map_congr_left fun ctor _ => (planCtor_bare ctx c.name.name ctor).1
  · have hmembers : (c.ctors.map CtorDecl.bare).map (planCtor ctx c.name.name) =
        c.ctors.map (planCtor ctx c.name.name) := by
      rw [map_map]
      exact map_congr_left fun ctor _ => (planCtor_bare ctx c.name.name ctor).2
    simp only [planClass, ClassDef.bare, hmembers]

theorem planFunction_bare (f : Function) :
    (planFunction ctx f).1.bare = f.bare ∧
      planFunction ctx f.bare = planFunction ctx f := by
  constructor
  · simp only [planFunction, Function.bare, bareBlock_planBody]
  · simp only [planFunction, Function.bare, planBody_bareBlock]

/-- Scheduling puts cleanup into a program and changes nothing else. -/
theorem bare_planCleanup (p : Program) : (p.planCleanup ctx).1.program.bare = p.bare := by
  simp only [Program.planCleanup, Program.bare, map_map]
  congr 1
  · exact map_congr_left fun f _ => (planFunction_bare ctx f).1
  · exact map_congr_left fun c _ => (planClass_bare ctx c).1

/-- What scheduling makes of a program depends on its bare form, up to the program itself. -/
theorem planCleanup_bare (p : Program) : p.bare.planCleanup ctx = p.planCleanup ctx := by
  have hclasses : (p.classes.map ClassDef.bare).map (planClass ctx) =
      p.classes.map (planClass ctx) := by
    rw [map_map]
    exact map_congr_left fun c _ => (planClass_bare ctx c).2
  have hfunctions : (p.functions.map Function.bare).map (planFunction ctx) =
      p.functions.map (planFunction ctx) := by
    rw [map_map]
    exact map_congr_left fun f _ => (planFunction_bare ctx f).2
  simp only [Program.planCleanup, Program.bare, hclasses, hfunctions]

/-- Planning what was planned gives the same once more, errors included. -/
theorem planCleanup_planned (p : Program) :
    (p.planCleanup ctx).1.program.planCleanup ctx = p.planCleanup ctx := by
  rw [← planCleanup_bare, bare_planCleanup, planCleanup_bare]

theorem block?_bare (c : CtorDecl) : c.bare.block? = c.block?.map bareBlock := by
  obtain ⟨span, kind, isExplicit, body⟩ := c
  cases body <;> rfl

/-- Tables cover a program exactly if they cover its bare form. -/
theorem covers_bare (p : Program) : ctx.covers p.bare = ctx.covers p := by
  have hctors : p.bare.ctorBlocks = p.ctorBlocks.map bareBlock := by
    simp only [Program.ctorBlocks, Program.bare, ClassDef.bare, flatMap_map,
      filterMap_map, map_flatMap, map_filterMap]
    refine flatMap_congr fun c _ => filterMap_congr fun ctor _ => ?_
    exact block?_bare ctor
  have hcovers : ctx.coversBlock ∘ bareBlock = ctx.coversBlock :=
    funext (coversBlock_bareBlock ctx)
  have hfunctions : (fun f : Function => ctx.coversBlock f.bare.body) =
      fun f => ctx.coversBlock f.body :=
    funext fun f => coversBlock_bareBlock ctx f.body
  rw [Context.covers, hctors, all_map, hcovers]
  simp only [Program.bare, all_map, Function.comp_def, hfunctions]
  rfl

end Programs

/-- Every fault of scheduling blocks. -/
theorem CleanupFault.isBlocking_severity (f : CleanupFault) : f.severity.isBlocking = true := by
  cases f <;> rfl

/-- Without blocking diagnostics behind it, scheduling reported nothing. -/
theorem errors_eq_nil_of_not_blocking {source : Source} {sofar : Diagnostics}
    {errors : List CleanupError}
    (h : (sofar ++ errors.map (CleanupError.toDiagnostic source)).hasBlocking = false) :
    errors = [] := by
  cases errors with
  | nil => rfl
  | cons e es =>
    rw [Diagnostics.hasBlocking, any_eq_false] at h
    have hmem : e.toDiagnostic source ∈
        sofar ++ (e :: es).map (CleanupError.toDiagnostic source) :=
      mem_append_right _ mem_cons_self
    exact absurd e.fault.isBlocking_severity (h _ hmem)

/-- Scheduling only puts cleanup into a program.  If nothing blocks behind it, scheduling the
result with the same tables gives the same program with the same reports, and reports nothing. -/
theorem scheduleCleanup_twice (ctx : Context) (p : Program) (source : Source)
    (sofar : Diagnostics) (result : ScheduledProgram) (errors : List CleanupError)
    (h : p.scheduleCleanup ctx sofar = (some result, errors)) :
    result.program.bare = p.bare ∧
      ((sofar ++ errors.map (CleanupError.toDiagnostic source)).hasBlocking = false →
        result.program.scheduleCleanup ctx
          (sofar ++ errors.map (CleanupError.toDiagnostic source)) = (some result, [])) := by
  obtain ⟨-, hcovers, hplan⟩ := (scheduleCleanup_eq_some_iff ctx).1 h
  have hresult : (p.planCleanup ctx).1 = result := congrArg Prod.fst hplan
  have hbare : result.program.bare = p.bare := by rw [← hresult, bare_planCleanup]
  refine ⟨hbare, fun hclean => (scheduleCleanup_eq_some_iff ctx).2 ⟨hclean, ?_, ?_⟩⟩
  · rw [← covers_bare, hbare, covers_bare]
    exact hcovers
  · rw [← hresult, planCleanup_planned, hplan, errors_eq_nil_of_not_blocking hclean]

theorem scheduleCleanup_twice_nestedDefer :
    ∃ result errors,
      nestedDefer.program.scheduleCleanup nestedDefer.context nestedDefer.diagnostics =
          (some result, errors) ∧
        (nestedDefer.diagnostics ++
          errors.map (CleanupError.toDiagnostic nestedDefer)).hasBlocking = false ∧
        result.program.bare = nestedDefer.program.bare ∧
        result.program.scheduleCleanup nestedDefer.context
          (nestedDefer.diagnostics ++ errors.map (CleanupError.toDiagnostic nestedDefer)) =
            (some result, []) := by
  have hclean : nestedDefer.diagnostics.hasBlocking = false := by decide +kernel
  have hnone : nestedDefer.planned.2 = [] := by decide +kernel
  have hschedule := nestedDefer.scheduleCleanup_eq hclean
  have hafter : (nestedDefer.diagnostics ++
      nestedDefer.planned.2.map (CleanupError.toDiagnostic nestedDefer)).hasBlocking = false := by
    rw [hnone, List.map_nil, List.append_nil, hclean]
  have htwice := scheduleCleanup_twice _ _ nestedDefer _ _ _ hschedule
  exact ⟨_, _, hschedule, hafter, htwice.1, htwice.2 hafter⟩

end DeferLang
