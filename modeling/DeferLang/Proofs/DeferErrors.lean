import DeferLang.Proofs.ExitCleanup
import DeferLang.Proofs.Nesting
import DeferLang.Proofs.TrackedVariables

/-!
# The errors of deferred calls

Which errors a `defer` has can be read off the program around it: from the
variables that are visible in front of it, and from the statements behind it in its
own scope (`Point.deferErrors`).  Planning reports exactly these, and a `defer` with
an error leaves the orders of all open scopes as they are.
-/

namespace DeferLang

open List
open Cleanup hiding span

/-- The variable that an argument refers to and where, if it is a plain reference to one of
`vars`. -/
def Context.reference? (ctx : Context) (vars : List SymbolId) : Expr → Option (SymbolId × Span)
  | .var id name =>
    match ctx.resolve? id with
    | some var => if var ∈ vars then some (var, name.span) else none
    | none => none
  | _ => none

/-- The variables that a call refers to by plain arguments, each once, with its first place. -/
def Context.references (ctx : Context) (vars : List SymbolId) (call : Call) :
    List (SymbolId × Span) :=
  (call.args.filterMap (ctx.reference? vars)).eraseDupsBy fun x y => x.1 == y.1

/-- A scope, as diagnostics refer to it. -/
def ScopeHead.note (head : ScopeHead) : ScopeNote :=
  ⟨head.block, head.span, head.kind.label⟩

/-- The errors of a `defer` in a scope: it refers to no visible variable, or the scope may not
run, no `return` follows, and it refers to variables that are not the scope's own. -/
def Context.deferErrors (ctx : Context) (head : ScopeHead) (visible own : List SymbolId)
    (call : Call) (returnFollows : Bool) : List CleanupError :=
  let found := ctx.references visible call
  (if found = [] then
    [⟨.deferWithoutLocal call.callee.name, some (call.span, head.note)⟩]
  else
    []) ++
  (if head.kind.isConditional ∧ returnFollows = false then
    (found.reverse.filter fun x => x.1 ∉ own).map fun x =>
      ⟨.conditionalDefer (ctx.symbols.name x.1) head.kind, some (x.2, head.note)⟩
  else
    [])

/-- The errors of the `defer` behind a point. -/
def Point.deferErrors (ctx : Context) : Point → List CleanupError
  | ⟨head, before, .defer span call :: later⟩ :: outer =>
    let sc : OpenScope := ⟨head, before, .defer span call :: later⟩
    ctx.deferErrors head (ctx.symbolsOf (visible (sc :: outer))) (ctx.symbolsOf sc.own) call
      (later.any Stmt.isReturn)
  | _ => []

section Orders

variable (ctx : Context)

/-- The orders of a scope behind statements, in front of which they are `t`.  The statements
`after` follow. -/
def ordersBehind (after : List Stmt) (t : ScopeCleanup) : List Stmt → ScopeCleanup
  | [] => t
  | s :: ss =>
    ordersBehind after (planStmt ctx t ((ss ++ after).any Stmt.isReturn) s).orders ss

/-- The orders of an open scope at a point, inside a scope with the orders `around`. -/
def OpenScope.orders (around : Option ScopeCleanup) (sc : OpenScope) : ScopeCleanup :=
  ordersBehind ctx sc.rest
    (entryOrders around sc.head.block sc.head.span sc.head.kind
      (sc.head.loopVar.bind fun x => ctx.declSymbol? x.decl))
    sc.before

/-- The orders of all open scopes at a point, as planning has them when it gets there,
innermost first. -/
def Point.activeOrders : Point → List ScopeCleanup
  | [] => []
  | sc :: outer => sc.orders ctx (activeOrders outer).head? :: activeOrders outer

theorem ordersBehind_concat (after : List Stmt) (t : ScopeCleanup) (ss : List Stmt) (s : Stmt) :
    ordersBehind ctx after t (ss ++ [s]) =
      (planStmt ctx (ordersBehind ctx (s :: after) t ss)
        (after.any Stmt.isReturn) s).orders := by
  induction ss generalizing t with
  | nil => rfl
  | cons s' ss ih =>
    rw [cons_append, ordersBehind, ih, ordersBehind, append_assoc, singleton_append]

/-- Going behind a statement plans it. -/
theorem OpenScope.orders_advance (around : Option ScopeCleanup) (head : ScopeHead)
    (before rest : List Stmt) (s : Stmt) :
    OpenScope.orders ctx around ⟨head, before ++ [s], rest⟩ =
      (planStmt ctx (OpenScope.orders ctx around ⟨head, before, s :: rest⟩)
        (rest.any Stmt.isReturn) s).orders :=
  ordersBehind_concat ctx rest _ before s

/-- The errors that planning reports for the `defer` behind a point. -/
def Point.plannedErrors : Point → List CleanupError
  | ⟨head, before, .defer span call :: later⟩ :: outer =>
    let sc : OpenScope := ⟨head, before, .defer span call :: later⟩
    (planDefer ctx (sc.orders ctx (activeOrders ctx outer).head?) call
      (later.any Stmt.isReturn)).2
  | _ => []

end Orders

/- Planning meets the points of a body one by one, with the orders that are active there. -/
section Run

variable {ctx : Context}

mutual

/-- The errors of a statement are those at the point in front of it and inside it. -/
theorem errors_planStmt {outer : Point} {head : ScopeHead} {before rest : List Stmt} {s : Stmt} :
    (planStmt ctx
        (OpenScope.orders ctx (Point.activeOrders ctx outer).head? ⟨head, before, s :: rest⟩)
        (rest.any Stmt.isReturn) s).errors =
      Point.plannedErrors ctx (⟨head, before, s :: rest⟩ :: outer) ++
        (Point.pointsIn (⟨head, before, s :: rest⟩ :: outer) s).flatMap
          (Point.plannedErrors ctx) := by
  match s with
  | .defer _ _ => exact (append_nil _).symm
  | .varDecl _ | .assign _ _ _ | .call _ _ | .ret _ _ | .cleanup _ => rfl
  | .block body =>
    rw [Point.pointsIn, ← errors_planBlock _ _ _ body]
    rfl
  | .ifElse _ _ thenBody none =>
    rw [Point.pointsIn, ← errors_planBlock _ _ _ thenBody]
    rfl
  | .ifElse _ _ thenBody (some elseBody) =>
    rw [Point.pointsIn, flatMap_append, ← errors_planBlock _ _ _ thenBody,
      ← errors_planBlock _ _ _ elseBody]
    rfl
  | .whileLoop _ _ body | .forIn _ _ _ _ body =>
    rw [Point.pointsIn, ← errors_planBlock _ _ _ body]
    rfl

theorem errors_planBlock (outer : Point) (kind : ScopeKind) (loopVar : Option LocalVar)
    (s : BlockOf Stmt) :
    (planBlock ctx (Point.activeOrders ctx outer).head? kind
        (loopVar.bind fun x => ctx.declSymbol? x.decl) s).errors =
      (Point.pointsOf outer kind loopVar s).flatMap (Point.plannedErrors ctx) := by
  match s with
  | ⟨id, span, stmts⟩ =>
    have hstmts := errors_planStmts outer ⟨id, span, kind, loopVar⟩ [] stmts
    rw [planBlock, errors_planEnd, Point.pointsOf, flatMap_append, ← hstmts]
    exact (append_nil _).symm

theorem errors_planStmts (outer : Point) (head : ScopeHead) (before : List Stmt) (s : List Stmt) :
    (planStmts ctx
        (OpenScope.orders ctx (Point.activeOrders ctx outer).head? ⟨head, before, s⟩) s).errors =
      (Point.pointsAmong outer head before [] s).flatMap (Point.plannedErrors ctx) := by
  match s with
  | [] => rfl
  | s :: ss =>
    rw [planStmts, Point.pointsAmong, flatMap_cons, flatMap_append,
      ← errors_planStmts outer head (before ++ [s]) ss, append_nil, OpenScope.orders_advance,
      ← append_assoc, ← errors_planStmt (s := s)]

end

theorem errors_planBody (body : Block) :
    (planBody ctx body).errors = body.points.flatMap (Point.plannedErrors ctx) :=
  errors_planBlock [] .body none body

end Run

/-- The orders `t` are those of the innermost scope `sc` of a point: they hold the symbols of what
is visible, and know which are the scope's own. -/
structure ScopeCleanup.IsAt (ctx : Context) (sc : OpenScope) (outer : Point) (t : ScopeCleanup) :
    Prop where
  note_eq : t.note = sc.head.note
  kind_eq : t.kind = sc.head.kind
  locals_eq : t.locals = ctx.symbolsOf sc.own
  mem_returnOrder : ∀ v, v ∈ t.returnOrder ↔ v ∈ ctx.symbolsOf (Point.visible (sc :: outer))

section Places

variable {ctx : Context} {outer : Point} {head : ScopeHead} {t : ScopeCleanup}

namespace ScopeCleanup.IsAt

/-- The orders follow the scope when it gets further variables. -/
theorem extend {sc sc' : OpenScope} {t' : ScopeCleanup} (xs : List LocalVar)
    (h : t.IsAt ctx sc outer) (hextends : t.Extends t' (ctx.symbolsOf xs))
    (hnote : sc'.head.note = sc.head.note) (hkind : sc'.head.kind = sc.head.kind)
    (hown : sc'.own = sc.own ++ xs) : t'.IsAt ctx sc' outer := by
  have hvisible : Point.visible (sc' :: outer) = Point.visible (sc :: outer) ++ xs := by
    rw [Point.visible, Point.visible, hown, append_assoc]
  constructor
  · rw [ScopeCleanup.note, hextends.block_eq, hextends.span_eq, hextends.kind_eq, hnote]
    exact h.note_eq
  · rw [hextends.kind_eq, hkind]
    exact h.kind_eq
  · rw [hextends.locals_eq, h.locals_eq, hown, Context.symbolsOf_append]
  · intro v
    rw [hextends.mem_returnOrder, h.mem_returnOrder, hvisible, Context.symbolsOf_append, mem_append]

/-- Entering a scope, inside another or as a body. -/
theorem entry {around : Option ScopeCleanup} {rest : List Stmt}
    (haround : ∀ v, v ∈ around.elim [] ScopeCleanup.returnOrder ↔
      v ∈ ctx.symbolsOf (Point.visible outer)) :
    (entryOrders around head.block head.span head.kind
      (head.loopVar.bind fun x => ctx.declSymbol? x.decl)).IsAt ctx ⟨head, [], rest⟩ outer := by
  obtain ⟨block, span, kind, loopVar⟩ := head
  have hstart : (entryOrders around block span kind none).IsAt ctx
      ⟨⟨block, span, kind, none⟩, [], rest⟩ outer := by
    have hvisible : Point.visible (⟨⟨block, span, kind, none⟩, [], rest⟩ :: outer) =
        Point.visible outer := append_nil _
    cases around with
    | none | some t => exact ⟨rfl, rfl, rfl, fun v => hvisible ▸ haround v⟩
  cases loopVar with
  | none => exact hstart
  | some x =>
    refine hstart.extend [x] ?_ rfl rfl rfl
    rw [Option.bind_some, Context.symbolsOf, filterMap_cons, filterMap_nil]
    cases ctx.declSymbol? x.decl with
    | none => exact .refl _
    | some var => exact .declare _ var

end ScopeCleanup.IsAt

/-- Statements take the orders along with the point. -/
theorem isAt_orders {around : Option ScopeCleanup}
    (haround : ∀ v, v ∈ around.elim [] ScopeCleanup.returnOrder ↔
      v ∈ ctx.symbolsOf (Point.visible outer)) (before rest : List Stmt) :
    (OpenScope.orders ctx around ⟨head, before, rest⟩).IsAt ctx ⟨head, before, rest⟩ outer := by
  induction before using List.reverseRecOn generalizing rest with
  | nil => exact .entry haround
  | append_singleton before s ih =>
    rw [OpenScope.orders_advance]
    exact (ih (s :: rest)).extend _ (extends_planStmt ctx _ _ s) rfl rfl
      (OpenScope.own_advance head before rest s)

/-- The orders of the innermost scope of a point, if there is one, hold what is visible. -/
theorem mem_activeOrders (p : Point) (v : SymbolId) :
    v ∈ (p.activeOrders ctx).head?.elim [] ScopeCleanup.returnOrder ↔
      v ∈ ctx.symbolsOf p.visible := by
  induction p generalizing v with
  | nil => rfl
  | cons sc outer ih => exact (isAt_orders ih sc.before sc.rest).mem_returnOrder v

/-- Collecting what is found, unless something equivalent was found before. -/
theorem foldl_eq_eraseDupsBy {α β : Type} {r : β → β → Bool} {f : α → Option β}
    {step : List β → α → List β} (hnone : ∀ found a, f a = none → step found a = found)
    (hsome : ∀ found a x, f a = some x →
      step found a = if found.any (r x) then found else found ++ [x]) (as : List α) :
    as.foldl step [] = (as.filterMap f).eraseDupsBy r := by
  -- `eraseDupsBy` keeps what it has found in reverse.
  have hloop : ∀ found, as.foldl step found =
      List.eraseDupsBy.loop r (as.filterMap f) found.reverse := by
    induction as with
    | nil => exact fun found => found.reverse_reverse.symm
    | cons a as ih =>
      intro found
      rw [foldl_cons, ih, filterMap_cons]
      cases ha : f a with
      | none => rw [hnone found a ha]
      | some x =>
        rw [hsome found a x ha, List.eraseDupsBy.loop, any_reverse]
        cases found.any (r x) with
        | true => rfl
        | false => simp
  exact hloop []

/-- The variables that planning finds in a call are those it refers to. -/
theorem deferredVars_eq_references {vars : List SymbolId}
    (hvars : ∀ v, v ∈ t.returnOrder ↔ v ∈ vars) (call : Call) :
    deferredVars ctx t call.args = ctx.references vars call := by
  unfold deferredVars Context.references
  have hisNone : ∀ (found : List (SymbolId × Span)) var,
      (found.lookup var).isNone = !found.any fun y => var == y.1 := by
    intro found var
    rw [Bool.eq_iff_iff, Option.isNone_iff_eq_none, lookup_eq_none_iff]
    simp
  refine foldl_eq_eraseDupsBy ?_ ?_ call.args
  · intro found arg hnone
    cases arg with
    | var id name =>
      cases hresolve : ctx.resolve? id with
      | none => simp only [hresolve]
      | some var =>
        have hvar : var ∉ vars := by simpa [Context.reference?, hresolve] using hnone
        simp [hresolve, ScopeCleanup.tracks, hvars, hvar]
    | _ => rfl
  · intro found arg x hsome
    cases arg with
    | var id name =>
      cases hresolve : ctx.resolve? id with
      | none => simp [Context.reference?, hresolve] at hsome
      | some var =>
        obtain ⟨hvar, rfl⟩ : var ∈ vars ∧ (var, name.span) = x := by
          simpa [Context.reference?, hresolve] using hsome
        simp only [hresolve, ScopeCleanup.tracks, hvars, hvar, hisNone, decide_true, true_and]
        cases found.any fun y => var == y.1 <;> rfl
    | _ => contradiction

/-- The effects of a call are on the variables it refers to, the last first. -/
theorem deferEffects_eq (ctx : Context) (call : Call) (found : List (SymbolId × Span)) :
    (deferEffects ctx call found).map (fun e => (e.var, e.span)) = found.reverse := by
  cases found with
  | nil => rfl
  | cons x others =>
    rw [deferEffects, map_append, map_reverse, map_map, reverse_cons]
    exact congrArg (fun l => l.reverse ++ [x]) (map_id others)

/-- With the orders of its place, the effects of a `defer` have the faults it has there. -/
theorem ScopeCleanup.IsAt.deferFaults_eq {sc : OpenScope} (h : t.IsAt ctx sc outer) (call : Call)
    (found : List (SymbolId × Span)) (returnFollows : Bool) :
    deferFaults ctx t returnFollows (deferEffects ctx call found) =
      if sc.head.kind.isConditional ∧ returnFollows = false then
        (found.reverse.filter fun x => x.1 ∉ ctx.symbolsOf sc.own).map fun x =>
          ⟨.conditionalDefer (ctx.symbols.name x.1) sc.head.kind, some (x.2, sc.head.note)⟩
      else
        [] := by
  rw [deferFaults, ScopeCleanup.isConditional, h.kind_eq, h.note_eq,
    ← deferEffects_eq ctx call found, filter_map, map_map]
  simp only [ScopeCleanup.isLocal, h.locals_eq]
  congr 3
  funext e
  simp

/-- With the orders of its place, a `defer` is planned with the errors it has there. -/
theorem ScopeCleanup.IsAt.errors_planDefer {sc : OpenScope} (h : t.IsAt ctx sc outer) (call : Call)
    (returnFollows : Bool) :
    (planDefer ctx t call returnFollows).2 =
      ctx.deferErrors sc.head (ctx.symbolsOf (Point.visible (sc :: outer)))
        (ctx.symbolsOf sc.own) call returnFollows := by
  unfold planDefer Context.deferErrors
  rw [deferredVars_eq_references h.mem_returnOrder call]
  generalize ctx.references _ call = found
  have hempty : (deferEffects ctx call found).isEmpty = true ↔ found = [] := by
    rw [List.isEmpty_iff, ← found.reverse_eq_nil_iff, ← deferEffects_eq ctx call found,
      map_eq_nil_iff]
  dsimp only
  by_cases hfound : found = []
  · subst hfound
    rw [if_pos rfl, h.note_eq]
    simp [deferEffects]
  · rw [if_neg (mt hempty.1 hfound), if_neg hfound, nil_append, ← h.deferFaults_eq call]
    split
    · rename_i hnone
      exact (isEmpty_iff.1 hnone).symm
    · rfl

/-- A `defer` with an error has no effect. -/
theorem planDefer_of_errors {call : Call} {returnFollows : Bool}
    (h : (planDefer ctx t call returnFollows).2 ≠ []) :
    (planDefer ctx t call returnFollows).1 = t := by
  unfold planDefer at h ⊢
  dsimp only at h ⊢
  split
  · rfl
  · rename_i hfound
    rw [if_neg hfound] at h
    split
    · rename_i hfaults
      rw [if_pos hfaults] at h
      contradiction
    · rfl

/-- Planning reports the errors that a `defer` has at its place. -/
theorem plannedErrors_eq (p : Point) : p.plannedErrors ctx = p.deferErrors ctx := by
  unfold Point.plannedErrors Point.deferErrors
  split
  · exact (isAt_orders (mem_activeOrders _) _ _).errors_planDefer _ _
  · rfl

/-- Behind a `defer` with an error the orders of all open scopes are as in front of it. -/
theorem activeOrders_advance_of_errors {p : Point} (h : p.deferErrors ctx ≠ []) :
    p.advance.activeOrders ctx = p.activeOrders ctx := by
  rw [← plannedErrors_eq] at h
  unfold Point.plannedErrors at h
  split at h
  · rw [Point.advance, Point.activeOrders, Point.activeOrders, OpenScope.orders_advance]
    exact congrArg (· :: _) (planDefer_of_errors h)
  · contradiction

end Places

/-- Whatever program is checked without blocking diagnostics, scheduling it reports exactly the
errors that the `defer`s of its bodies have at their places, in order, and a `defer` with an error
has no effect on the orders of the scopes that are open around it. -/
theorem scheduleCleanup_reports_deferErrors (p : Program) (source : Source) (sofar : Diagnostics)
    (h : (sofar ++ p.check.2.map (TypingError.toDiagnostic source)).hasBlocking = false) :
    ∃ result,
      p.scheduleCleanup p.check.1 (sofar ++ p.check.2.map (TypingError.toDiagnostic source)) =
          (some result, p.bodies.flatMap fun body =>
            body.points.flatMap (Point.deferErrors p.check.1)) ∧
        ∀ body ∈ p.bodies, ∀ q ∈ body.points, q.deferErrors p.check.1 ≠ [] →
          q.advance.activeOrders p.check.1 = q.activeOrders p.check.1 := by
  refine ⟨(p.planCleanup p.check.1).1, ?_, fun _ _ _ _ => activeOrders_advance_of_errors⟩
  have herrors : (p.planCleanup p.check.1).2 = p.bodies.flatMap fun body =>
      body.points.flatMap (Point.deferErrors p.check.1) := by
    rw [errors_planCleanup]
    simp only [errors_planBody, funext plannedErrors_eq]
  rw [← herrors]
  exact (scheduleCleanup_eq_some_iff p.check.1).2 ⟨h, check_covers p, rfl⟩

/-- A source with a `defer` that mixes variables of an `if` body with variables around it, one
of them twice, and one that refers to no variable plainly. -/
def mixedDefer : Source :=
  .ofText 0 "mixed" ("fn main() \x7b int x = 1; int y = 2; if (x < y) \x7b int z = 3; " ++
    "defer f(z, y, x, y); defer g(1 + x); \x7d \x7d").toList

theorem scheduleCleanup_reports_deferErrors_mixedDefer :
    mixedDefer.diagnostics.hasBlocking = false ∧
      ∃ result errors,
        mixedDefer.program.scheduleCleanup mixedDefer.context mixedDefer.diagnostics =
            (some result, errors) ∧
          errors.map (fun e => e.fault.code) = [5001, 5001, 5002] ∧
          ∃ body ∈ mixedDefer.program.bodies, ∃ q ∈ body.points,
            q.deferErrors mixedDefer.context ≠ [] ∧
              q.advance.activeOrders mixedDefer.context = q.activeOrders mixedDefer.context := by
  have hclean : mixedDefer.diagnostics.hasBlocking = false := by decide +kernel
  obtain ⟨result, hschedule, hkeeps⟩ := scheduleCleanup_reports_deferErrors mixedDefer.program
    mixedDefer _ hclean
  obtain ⟨body, hbody, q, hq, herrors⟩ : ∃ body ∈ mixedDefer.program.bodies, ∃ q ∈ body.points,
      q.deferErrors mixedDefer.context ≠ [] := by decide +kernel
  exact ⟨hclean, result, _, hschedule, by decide +kernel, body, hbody, q, hq, herrors,
    hkeeps body hbody q hq herrors⟩

end DeferLang
