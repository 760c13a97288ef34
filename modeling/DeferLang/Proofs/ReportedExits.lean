import DeferLang.Proofs.Rescheduling
import DeferLang.Proofs.TrackedVariables

/-!
# The reports show the exits of the scheduled program

Planning records an exit when it meets one, and at the same time puts the cleanup
of the exit into the program.  The two agree: walking through a scheduled body and
noting every exit, with the block around it and the cleanup statements in front of
it, gives what was recorded, in the same order.
-/

namespace DeferLang

open List
open Cleanup hiding span

/-- The record of the exit at a point, if there is one: the innermost block, and the cleanup
statements that stand immediately before the exit. -/
def Point.record? : Point → Option ExitCleanup
  | [] => none
  | sc :: outer =>
    (Point.exit? (sc :: outer)).map fun (kind, span) =>
      ⟨kind, sc.head.block, span, Point.cleanupRun (sc :: outer)⟩

/-- The exits of a body, as they stand in it. -/
def Block.exits (body : Block) : List ExitCleanup :=
  body.points.filterMap Point.record?

/-- The bodies of the special members of a class, in order, each with its name in reports. -/
def ClassDef.namedBodies (c : ClassDef) : List (String × Block) :=
  c.ctors.filterMap fun ctor =>
    ctor.block?.map fun body => (Cleanup.memberName c.name.name ctor.kind, body)

/-- The bodies of a program with their names in reports: those of special members, then those
of functions. -/
def Program.namedBodies (p : Program) : List (String × Block) :=
  p.classes.flatMap ClassDef.namedBodies ++ p.functions.map fun f => (f.name.name, f.body)

section Statements

variable {ctx : Context} {outer : Point} {head : ScopeHead} {before rest : List Stmt}

theorem record?_of_not_return {s : Stmt} (h : s.isReturn = false) :
    Point.record? (⟨head, before, s :: rest⟩ :: outer) = none := by
  cases s with
  | ret _ _ => contradiction
  | _ => rfl

/-- In front of cleanup there is no exit. -/
theorem records_cleanup (items : List Cleanup) :
    (Point.pointsAmong outer head before rest (items.map .cleanup)).filterMap Point.record? =
      [] := by
  rw [filterMap_eq_nil_iff]
  intro p hp
  obtain ⟨earlier, item, later, -, rfl⟩ := mem_pointsAmong_cleanup hp
  rfl

/-- Planned statements, in their place between `before` and `rest`: the recorded exits are those
that stand in them, and the last of them is no cleanup. -/
structure Mirrors (outer : Point) (head : ScopeHead) (before rest : List Stmt)
    (planned : Cleanup.Planned (List Stmt)) : Prop where
  exits_eq : planned.exits =
    (Point.pointsAmong outer head before rest planned.value).filterMap Point.record?
  trailing : trailingCleanup (before ++ planned.value) = []

/-- One statement, which is neither cleanup nor a `return`, is planned as one statement. -/
theorem Mirrors.of_single {s : Stmt} {planned : Cleanup.Planned (List Stmt)}
    (hvalue : planned.value = [s]) (hcleanup : s.isCleanup = false) (hreturn : s.isReturn = false)
    (hinside : planned.exits =
      (Point.pointsIn (⟨head, before, s :: rest⟩ :: outer) s).filterMap Point.record?) :
    Mirrors outer head before rest planned := by
  constructor
  · rw [hvalue, Point.pointsAmong, Point.pointsAmong, append_nil, nil_append,
      filterMap_cons, record?_of_not_return hreturn, hinside]
  · rw [hvalue, trailingCleanup_append_of_not _ hcleanup]

/-- A `return` is recorded with the cleanup that is put in front of it. -/
theorem Mirrors.of_return {t : ScopeCleanup} (hblock : t.block = head.block)
    (hbefore : trailingCleanup before = []) (span : Span) (value : Option Expr) :
    Mirrors outer head before rest (planReturn ctx t span value) := by
  unfold planReturn
  dsimp only
  generalize Cleanup.sequence ctx t t.returnOrder span = items
  have hrecord : Point.record? (⟨head, before ++ items.map .cleanup, .ret span value :: rest⟩ ::
      outer) = some ⟨.ret, t.block, span, items⟩ := by
    rw [Point.record?, Point.cleanupRun, trailingCleanup_append_cleanup, hbefore, hblock]
    rfl
  constructor
  · rw [Point.pointsAmong_append, filterMap_append, records_cleanup, nil_append,
      Point.pointsAmong, nil_append, filterMap_cons, hrecord]
    rfl
  · rw [← append_assoc, trailingCleanup_append_of_not _ rfl]

/-- The end of a block is recorded with the cleanup that is put there, unless the block ends in
a `return`. -/
theorem exits_planEnd {id : NodeId} {span : Span} {kind : ScopeKind} {loopVar : Option LocalVar}
    {body : Cleanup.Planned (List Stmt)}
    (hbody : ∀ rest, Mirrors outer ⟨id, span, kind, loopVar⟩ [] rest body) :
    (planEnd ctx id span body).exits =
      (Point.pointsOf outer kind loopVar (planEnd ctx id span body).value).filterMap
        Point.record? := by
  unfold planEnd
  split
  · rename_i hreturn
    have hend : Point.record? (⟨⟨id, span, kind, loopVar⟩, body.value, []⟩ :: outer) = none := by
      rw [Point.record?, Point.exit?, if_pos hreturn, Option.map_none]
    rw [Point.pointsOf, filterMap_append, filterMap_cons, hend, filterMap_nil, append_nil]
    exact (hbody []).exits_eq
  · rename_i hreturn
    dsimp only
    generalize Cleanup.sequence ctx body.orders body.orders.fallOffOrder _ = items
    have htrailing : trailingCleanup body.value = [] := (hbody []).trailing
    have hstays : endsWithReturn (body.value ++ items.map .cleanup) = false :=
      endsWithReturn_append_cleanup (by simpa using hreturn) items
    have hend : Point.record? (⟨⟨id, span, kind, loopVar⟩, body.value ++ items.map .cleanup, []⟩ ::
        outer) = some ⟨.fallOff, id, closingBrace span, items⟩ := by
      rw [Point.record?, Point.exit?, if_neg (by simp [hstays]), Point.cleanupRun,
        trailingCleanup_append_cleanup, htrailing]
      rfl
    rw [Point.pointsOf, filterMap_append, filterMap_cons, hend, filterMap_nil,
      Point.pointsAmong_append, filterMap_append, records_cleanup, append_nil,
      append_nil, ← (hbody (items.map .cleanup)).exits_eq]

end Statements

theorem block_entryOrders (o : Option ScopeCleanup) (id : NodeId) (span : Span) (kind : ScopeKind)
    (loopVar : Option SymbolId) : (entryOrders o id span kind loopVar).block = id := by
  cases o <;> cases loopVar <;> rfl

section Bodies

variable {ctx : Context}

mutual

/-- The exits recorded for a statement are those that stand in it with its cleanup. -/
theorem mirrors_planStmt {outer : Point} {head : ScopeHead} {before rest : List Stmt}
    {t : ScopeCleanup} {returnFollows : Bool} {s : Stmt} (hblock : t.block = head.block)
    (hbefore : trailingCleanup before = []) :
    Mirrors outer head before rest (planStmt ctx t returnFollows s) := by
  match s with
  | .varDecl _ | .defer _ _ | .assign _ _ _ | .call _ _ => exact .of_single rfl rfl rfl rfl
  | .ret span value => exact .of_return hblock hbefore span value
  | .cleanup _ =>
    refine ⟨rfl, ?_⟩
    rw [planStmt, append_nil, hbefore]
  | .block body => exact .of_single rfl rfl rfl (exits_planBlock (s := body))
  | .ifElse _ _ thenBody none => exact .of_single rfl rfl rfl (exits_planBlock (s := thenBody))
  | .ifElse _ _ thenBody (some elseBody) =>
    refine .of_single rfl rfl rfl ?_
    rw [Point.pointsIn, filterMap_append, ← exits_planBlock (s := thenBody),
      ← exits_planBlock (s := elseBody)]
    rfl
  | .whileLoop _ _ body | .forIn _ _ _ _ body =>
    exact .of_single rfl rfl rfl (exits_planBlock (s := body))

theorem exits_planBlock {outer : Point} {o : Option ScopeCleanup} {kind : ScopeKind}
    {loopVar : Option LocalVar} {symbol : Option SymbolId} {s : BlockOf Stmt} :
    (planBlock ctx o kind symbol s).exits =
      (Point.pointsOf outer kind loopVar (planBlock ctx o kind symbol s).value).filterMap
        Point.record? := by
  match s with
  | ⟨id, span, stmts⟩ =>
    rw [planBlock]
    exact exits_planEnd fun rest =>
      mirrors_planStmts (s := stmts) (block_entryOrders o id span kind symbol) rfl

theorem mirrors_planStmts {outer : Point} {head : ScopeHead} {before rest : List Stmt}
    {t : ScopeCleanup} {s : List Stmt} (hblock : t.block = head.block)
    (hbefore : trailingCleanup before = []) :
    Mirrors outer head before rest (planStmts ctx t s) := by
  match s with
  | [] =>
    refine ⟨rfl, ?_⟩
    rw [planStmts, append_nil, hbefore]
  | s :: ss =>
    rw [planStmts]
    have hnext : (planStmt ctx t (ss.any Stmt.isReturn) s).orders.block = head.block :=
      (extends_planStmt ctx t _ s).block_eq.trans hblock
    have hfirst : ∀ rest, Mirrors outer head before rest
        (planStmt ctx t (ss.any Stmt.isReturn) s) :=
      fun _ => mirrors_planStmt (s := s) hblock hbefore
    generalize planStmt ctx t (ss.any Stmt.isReturn) s = first at hnext hfirst
    have hothers : Mirrors outer head (before ++ first.value) rest
        (planStmts ctx first.orders ss) :=
      mirrors_planStmts (s := ss) hnext (hfirst []).trailing
    constructor
    · rw [Point.pointsAmong_append, filterMap_append, ← hothers.exits_eq, ← (hfirst _).exits_eq]
    · rw [← append_assoc]
      exact hothers.trailing

end

/-- The exits recorded for a body are those that stand in it with its cleanup. -/
theorem exits_planBody (body : Block) :
    (planBody ctx body).exits = Block.exits (planBody ctx body).value :=
  exits_planBlock

theorem reports_planCtor (name : String) (c : CtorDecl) :
    (planCtor ctx name c).2.1 =
      ((planCtor ctx name c).1.block?.map fun body =>
        CleanupReport.mk (Cleanup.memberName name (planCtor ctx name c).1.kind)
          body.exits).toList := by
  obtain ⟨span, kind, isExplicit, body⟩ := c
  cases body with
  | defaulted | deleted => rfl
  | body block =>
    exact congrArg (fun exits => [CleanupReport.mk (Cleanup.memberName name kind) exits])
      (exits_planBody block)

theorem reports_planClass (c : ClassDef) :
    (planClass ctx c).2.1 =
      (planClass ctx c).1.namedBodies.map fun (name, body) => ⟨name, body.exits⟩ := by
  rw [planClass, ClassDef.namedBodies, flatMap_map, map_map,
    filterMap_map, map_filterMap, filterMap_eq_flatMap_toList]
  refine flatMap_congr fun ctor _ => ?_
  rw [reports_planCtor, Function.comp_apply, Option.map_map]
  rfl

theorem reports_planCleanup (p : Program) :
    (p.planCleanup ctx).1.reports =
      (p.planCleanup ctx).1.program.namedBodies.map fun (name, body) => ⟨name, body.exits⟩ := by
  have hclasses : (p.classes.map (planClass ctx)).flatMap (·.2.1) =
      (((p.classes.map (planClass ctx)).map (·.1)).flatMap ClassDef.namedBodies).map
        fun (name, body) => ⟨name, body.exits⟩ := by
    simp only [flatMap_map, map_flatMap]
    exact flatMap_congr fun c _ => reports_planClass c
  have hfunctions : (p.functions.map (planFunction ctx)).map (·.2.1) =
      (((p.functions.map (planFunction ctx)).map (·.1)).map fun f =>
        (f.name.name, f.body)).map
          fun (name, body) => CleanupReport.mk name (Block.exits body) := by
    simp only [map_map]
    refine map_congr_left fun f _ => ?_
    exact congrArg (CleanupReport.mk f.name.name) (exits_planBody f.body)
  simp only [Program.planCleanup, Program.namedBodies, map_append]
  exact congrArg₂ (· ++ ·) hclasses hfunctions

end Bodies

/-- Whatever program is scheduled, the reports are those of its bodies in order, special members
first, and the exits of a report are those that stand in the scheduled body, with the cleanup
statements directly in front of them. -/
theorem reports_eq_exits_of_bodies (ctx : Context) (p : Program) (sofar : Diagnostics)
    (result : ScheduledProgram) (errors : List CleanupError)
    (h : p.scheduleCleanup ctx sofar = (some result, errors)) :
    result.program.bare = p.bare ∧
      result.reports = result.program.namedBodies.map fun (name, body) => ⟨name, body.exits⟩ := by
  obtain ⟨-, -, hplan⟩ := (scheduleCleanup_eq_some_iff ctx).1 h
  obtain rfl : (p.planCleanup ctx).1 = result := congrArg Prod.fst hplan
  exact ⟨bare_planCleanup ctx p, reports_planCleanup p⟩

/-- A source with a constructor and a function, which have statements behind a `return`. -/
def deadCode : Source :=
  .ofText 0 "dead" ("class P \x7b P() \x7b int a = 1; \x7b return; int b = a; \x7d \x7d \x7d; " ++
    "fn main() \x7b int x = 1; if (x < 2) \x7b defer release(x); return; \x7d return; " ++
    "while (x < 3) \x7b int y = x; \x7d \x7d").toList

theorem reports_eq_exits_of_bodies_deadCode :
    ∃ result errors,
      deadCode.program.scheduleCleanup deadCode.context deadCode.diagnostics =
          (some result, errors) ∧
        result.program.bare = deadCode.program.bare ∧
        result.reports =
          result.program.namedBodies.map fun (name, body) => ⟨name, body.exits⟩ := by
  have hclean : deadCode.diagnostics.hasBlocking = false := by decide +kernel
  have hschedule := deadCode.scheduleCleanup_eq hclean
  exact ⟨_, _, hschedule, reports_eq_exits_of_bodies _ _ _ _ _ hschedule⟩

end DeferLang
