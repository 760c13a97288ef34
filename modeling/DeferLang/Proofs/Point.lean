import DeferLang.Cleanup.Schedule

/-!
# Points of a program

A point of a body is a place between its statements.  It is given by the scopes
that are open there, innermost first; each open scope tells which of its
statements stand before the point and which stand behind it.

From a point one reads off, without any bookkeeping along the way, which
variables are visible there, which `defer`s count there, and in which order the
visible variables are to be cleaned up.  Statements of cleanup that stand in
the program play no role in this.
-/

namespace DeferLang

open List

/-- A local variable: the node that declares it, and its name. -/
structure LocalVar where
  decl : NodeId
  name : String
deriving DecidableEq

/-- The variable that a declaration declares. -/
def VarDecl.toLocal (d : VarDecl) : LocalVar :=
  ⟨d.id, d.name.name⟩

namespace Stmt

/-- The variable that a statement declares in the scope it stands in. -/
def declared? : Stmt → Option LocalVar
  | .varDecl d => some d.toLocal
  | _ => none

/-- What a cleanup statement does. -/
def cleanup? : Stmt → Option Cleanup
  | .cleanup item => some item
  | _ => none

theorem eq_cleanup_of_cleanup? {s : Stmt} {item : Cleanup} (h : s.cleanup? = some item) :
    s = .cleanup item := by
  cases s with
  | cleanup other => rw [Option.some.inj h]
  | _ => contradiction

end Stmt

mutual

/-- The variables declared in a statement, inside it included, in the order in which they
stand. -/
def Stmt.decls : Stmt → List LocalVar
  | .varDecl d => [d.toLocal]
  | .block body => declsOfBlock none body
  | .ifElse _ _ thenBody none => declsOfBlock none thenBody
  | .ifElse _ _ thenBody (some elseBody) =>
    declsOfBlock none thenBody ++ declsOfBlock none elseBody
  | .whileLoop _ _ body => declsOfBlock none body
  | .forIn id _ var _ body => declsOfBlock (some ⟨id, var.name⟩) body
  | .assign _ _ _ => []
  | .call _ _ => []
  | .ret _ _ => []
  | .defer _ _ => []
  | .cleanup _ => []

/-- The variables declared in a block, that of its loop first. -/
def declsOfBlock (loopVar : Option LocalVar) : BlockOf Stmt → List LocalVar
  | ⟨_, _, stmts⟩ => loopVar.toList ++ declsOfStmts stmts

/-- The variables declared in statements. -/
def declsOfStmts : List Stmt → List LocalVar
  | [] => []
  | s :: ss => s.decls ++ declsOfStmts ss

end

/-- The variable of a loop is the first that is declared in its body. -/
theorem declsOfBlock_some (x : LocalVar) (b : BlockOf Stmt) :
    declsOfBlock (some x) b = x :: declsOfBlock none b := by
  cases b
  rfl

theorem declsOfStmts_append (xs ys : List Stmt) :
    declsOfStmts (xs ++ ys) = declsOfStmts xs ++ declsOfStmts ys := by
  induction xs with
  | nil => rfl
  | cons s ss ih => rw [cons_append, declsOfStmts, ih, declsOfStmts, append_assoc]

/-- A statement declares in its own scope at most what it declares at all. -/
theorem Stmt.declared_subset_decls (s : Stmt) : ∀ x ∈ s.declared?, x ∈ s.decls := by
  intro x hx
  cases s with
  | varDecl d =>
    rw [Stmt.declared?, Option.mem_some_iff] at hx
    rw [Stmt.decls, hx]
    exact mem_singleton_self x
  | _ => contradiction

/-- A scope: its block, what that is the body of, and the variable of its loop. -/
structure ScopeHead where
  block : NodeId
  span : Span
  kind : ScopeKind
  loopVar : Option LocalVar

/-- A scope that is open at a point, with its statements before the point and from it on. -/
structure OpenScope where
  head : ScopeHead
  before : List Stmt
  rest : List Stmt

/-- The variables declared directly in the scope before the point. -/
def OpenScope.own (sc : OpenScope) : List LocalVar :=
  sc.head.loopVar.toList ++ sc.before.filterMap Stmt.declared?

/-- Behind a statement, its own variable belongs to the scope too. -/
theorem OpenScope.own_advance (head : ScopeHead) (before rest : List Stmt) (s : Stmt) :
    OpenScope.own ⟨head, before ++ [s], rest⟩ =
      OpenScope.own ⟨head, before, s :: rest⟩ ++ s.declared?.toList := by
  simp only [own, filterMap_append, append_assoc]
  cases h : s.declared? <;> simp [h]

/-- The scopes that are open at a point, innermost first. -/
abbrev Point := List OpenScope

namespace Point

/-- The statement behind a point. -/
def next? : Point → Option Stmt
  | [] => none
  | sc :: _ => sc.rest.head?

/-- The variables declared directly in an open scope before the point, in the order in which
they stand. -/
def visible : Point → List LocalVar
  | [] => []
  | sc :: outer => visible outer ++ sc.own

/-- The variables of the innermost scope. -/
def own : Point → List LocalVar
  | [] => []
  | sc :: _ => sc.own

mutual

/-- The `defer`s that count behind a statement: itself, or those in a plain block. -/
def defersAt (here : Point) : Stmt → List Point
  | .defer _ _ => [here]
  | .block body => defersInBlock here body
  | .varDecl _ => []
  | .assign _ _ _ => []
  | .call _ _ => []
  | .ifElse _ _ _ _ => []
  | .whileLoop _ _ _ => []
  | .forIn _ _ _ _ _ => []
  | .ret _ _ => []
  | .cleanup _ => []

/-- The `defer`s that count behind a plain block. -/
def defersInBlock (here : Point) : BlockOf Stmt → List Point
  | ⟨id, span, stmts⟩ => defersAmong here ⟨id, span, .block, none⟩ [] [] stmts

/-- The `defer`s that count behind statements of a scope, latest first.  The statements stand
between `before` and `after`. -/
def defersAmong (outer : Point) (head : ScopeHead) (before after : List Stmt) :
    List Stmt → List Point
  | [] => []
  | s :: ss =>
    defersAmong outer head (before ++ [s]) after ss ++
      defersAt (⟨head, before, s :: (ss ++ after)⟩ :: outer) s

end

/-- The `defer`s that count at a point, each as the point in front of it, latest first: those
that stand before the point directly in an open scope, or in plain blocks there. -/
def defers : Point → List Point
  | [] => []
  | sc :: outer => defersAmong outer sc.head [] sc.rest sc.before ++ defers outer

end Point

/-- The visible variable that an argument names, if it is a plain variable. -/
def Context.namedBy? (ctx : Context) (visible : List LocalVar) : Expr → Option LocalVar
  | .var id _ =>
    match ctx.resolve? id with
    | none => none
    | some symbol => visible.find? fun x => ctx.declSymbol? x.decl = some symbol
  | _ => none

/-- The visible variables that a deferred call names, each once, in the order of the
arguments. -/
def Context.targets (ctx : Context) (visible : List LocalVar) (call : Call) : List LocalVar :=
  (call.args.filterMap (ctx.namedBy? visible)).eraseDups

/-- What `defer`s do to variables. -/
abbrev Hits := List (LocalVar × CleanupAction)

/-- What a `defer` does to its variables, the frontmost first.  The call runs with the first,
and the others are released by it. -/
def deferHits (call : Call) : List LocalVar → Hits
  | [] => []
  | x :: others => (x, .deferred call) :: others.map fun y => (y, .releasedBy x.name)

namespace Point

/-- The variables that the `defer` behind a point names. -/
def targets (ctx : Context) (p : Point) : List LocalVar :=
  match p.next? with
  | some (.defer _ call) => ctx.targets p.visible call
  | _ => []

/-- Whether the `defer` behind a point takes effect: in a scope that may not run, a `return`
stands behind it, or its variables belong to that scope. -/
def isValidDefer (ctx : Context) : Point → Bool
  | [] => false
  | sc :: outer =>
    !sc.head.kind.isConditional || sc.rest.tail.any Stmt.isReturn ||
      (targets ctx (sc :: outer)).all (· ∈ sc.own)

/-- What the `defer` behind a point does to its variables, the frontmost first. -/
def hitsHere (ctx : Context) (p : Point) : Hits :=
  match p.next? with
  | some (.defer _ call) =>
    if p.isValidDefer ctx then deferHits call (ctx.targets p.visible call) else []
  | _ => []

/-- What the `defer`s that count at a point do to variables, the frontmost first. -/
def hits (ctx : Context) (p : Point) : Hits :=
  p.defers.flatMap (hitsHere ctx)

end Point

/-- The order in which visible variables are cleaned up: first those that were deferred, the
frontmost first, then the others as they were declared. -/
def deferOrder (visible : List LocalVar) (hits : Hits) : List LocalVar :=
  ((hits.map Prod.fst).filter (· ∈ visible)).eraseDups ++
    visible.filter (· ∉ hits.map Prod.fst)

/-- The action of a hit, if it is on a variable. -/
def actionOn? (x : LocalVar) (hit : LocalVar × CleanupAction) : Option CleanupAction :=
  if hit.1 = x then some hit.2 else none

/-- The actions that clean up a variable, frontmost first.  A variable that was never deferred
is destroyed. -/
def actionsOn (hits : Hits) (x : LocalVar) : List CleanupAction :=
  match hits.filterMap (actionOn? x) with
  | [] => [.destructor]
  | found => found

/-- The cleanup of variables in an order, each by all its actions. -/
def cleanupOf (hits : Hits) (exit : Span) (order : List LocalVar) : List Cleanup :=
  order.flatMap fun x => (actionsOn hits x).map fun action => ⟨exit, ⟨x.name, exit⟩, x.decl, action⟩

/-- The cleanup statements at the end of statements. -/
def trailingCleanup (stmts : List Stmt) : List Cleanup :=
  (stmts.reverse.takeWhile Stmt.isCleanup).reverse.filterMap Stmt.cleanup?

theorem trailingCleanup_append_cleanup (stmts : List Stmt) (items : List Cleanup) :
    trailingCleanup (stmts ++ items.map .cleanup) = trailingCleanup stmts ++ items := by
  have hall : ∀ s ∈ (items.map Stmt.cleanup).reverse, s.isCleanup = true := by
    simp [Stmt.isCleanup]
  have hitems : (items.map Stmt.cleanup).filterMap Stmt.cleanup? = items := by
    rw [filterMap_map]
    exact filterMap_some
  rw [trailingCleanup, reverse_append, takeWhile_append_of_pos hall,
    reverse_append, reverse_reverse, filterMap_append, hitems]
  rfl

theorem trailingCleanup_append_of_not (stmts : List Stmt) {s : Stmt} (h : s.isCleanup = false) :
    trailingCleanup (stmts ++ [s]) = [] := by
  simp [trailingCleanup, h]

namespace Point

/-- The exit at a point: a `return` stands behind it, or its block ends there without one. -/
def exit? : Point → Option (ExitKind × Span)
  | ⟨_, _, .ret span _ :: _⟩ :: _ => some (.ret, span)
  | ⟨head, before, []⟩ :: _ =>
    if endsWithReturn before then none else some (.fallOff, Cleanup.closingBrace head.span)
  | _ => none

/-- The order in which the visible variables are cleaned up at a point. -/
def order (ctx : Context) (p : Point) : List LocalVar :=
  deferOrder p.visible (p.hits ctx)

/-- The cleanup that an exit at a point asks for.  Falling off the end of a block cleans up
the variables of that block, and a `return` all visible ones. -/
def exitCleanup (ctx : Context) (p : Point) : ExitKind → Span → List Cleanup
  | .ret, exit => cleanupOf (p.hits ctx) exit (p.order ctx)
  | .fallOff, exit => cleanupOf (p.hits ctx) exit ((p.order ctx).filter (· ∈ p.own))

/-- The cleanup statements that stand immediately before a point. -/
def cleanupRun : Point → List Cleanup
  | [] => []
  | sc :: _ => trailingCleanup sc.before

mutual

/-- The points inside a statement. -/
def pointsIn (here : Point) : Stmt → List Point
  | .block body => pointsOf here .block none body
  | .ifElse _ _ thenBody none => pointsOf here .thenBranch none thenBody
  | .ifElse _ _ thenBody (some elseBody) =>
    pointsOf here .thenBranch none thenBody ++ pointsOf here .elseBranch none elseBody
  | .whileLoop _ _ body => pointsOf here .whileBody none body
  | .forIn id _ var _ body => pointsOf here .forBody (some ⟨id, var.name⟩) body
  | .varDecl _ => []
  | .assign _ _ _ => []
  | .call _ _ => []
  | .ret _ _ => []
  | .defer _ _ => []
  | .cleanup _ => []

/-- The points of a block and of what is inside. -/
def pointsOf (outer : Point) (kind : ScopeKind) (loopVar : Option LocalVar) :
    BlockOf Stmt → List Point
  | ⟨id, span, stmts⟩ =>
    pointsAmong outer ⟨id, span, kind, loopVar⟩ [] [] stmts ++
      [⟨⟨id, span, kind, loopVar⟩, stmts, []⟩ :: outer]

/-- The points in front of and inside statements of a scope, which stand between `before` and
`after`. -/
def pointsAmong (outer : Point) (head : ScopeHead) (before after : List Stmt) :
    List Stmt → List Point
  | [] => []
  | s :: ss =>
    (⟨head, before, s :: (ss ++ after)⟩ :: outer) ::
      (pointsIn (⟨head, before, s :: (ss ++ after)⟩ :: outer) s ++
        pointsAmong outer head (before ++ [s]) after ss)

end

section Append

variable (outer : Point) (head : ScopeHead)

theorem defersAmong_append (before after xs ys : List Stmt) :
    defersAmong outer head before after (xs ++ ys) =
      defersAmong outer head (before ++ xs) after ys ++
        defersAmong outer head before (ys ++ after) xs := by
  induction xs generalizing before with
  | nil => simp [defersAmong]
  | cons s ss ih => simp [defersAmong, ih]

theorem pointsAmong_append (before after xs ys : List Stmt) :
    pointsAmong outer head before after (xs ++ ys) =
      pointsAmong outer head before (ys ++ after) xs ++
        pointsAmong outer head (before ++ xs) after ys := by
  induction xs generalizing before with
  | nil => simp [pointsAmong]
  | cons s ss ih => simp [pointsAmong, ih]

variable (before rest : List Stmt) (s : Stmt)

/-- Behind a statement, its own variable is visible too. -/
theorem visible_advance :
    visible (⟨head, before ++ [s], rest⟩ :: outer) =
      visible (⟨head, before, s :: rest⟩ :: outer) ++ s.declared?.toList := by
  rw [visible, visible, OpenScope.own_advance, append_assoc]

/-- Behind a statement, its own `defer`s count first. -/
theorem defers_advance :
    defers (⟨head, before ++ [s], rest⟩ :: outer) =
      defersAt (⟨head, before, s :: rest⟩ :: outer) s ++
        defers (⟨head, before, s :: rest⟩ :: outer) := by
  simp only [defers, defersAmong_append, defersAmong, nil_append, append_assoc, singleton_append]

theorem hits_advance (ctx : Context) :
    hits ctx (⟨head, before ++ [s], rest⟩ :: outer) =
      (defersAt (⟨head, before, s :: rest⟩ :: outer) s).flatMap (hitsHere ctx) ++
        hits ctx (⟨head, before, s :: rest⟩ :: outer) := by
  simp only [hits, defers_advance, flatMap_append]

end Append

/-- Statements of cleanup make nothing visible. -/
theorem visible_append_cleanup (outer : Point) (head : ScopeHead) (before rest rest' : List Stmt)
    (items : List Cleanup) :
    visible (⟨head, before ++ items.map .cleanup, rest⟩ :: outer) =
      visible (⟨head, before, rest'⟩ :: outer) := by
  have hnone : (items.map Stmt.cleanup).filterMap Stmt.declared? = [] := by
    rw [filterMap_map, filterMap_eq_nil_iff]
    intro item _
    rfl
  simp only [visible, OpenScope.own, filterMap_append, hnone, append_nil]

/-- Statements of cleanup defer nothing. -/
theorem defers_append_cleanup (outer : Point) (head : ScopeHead) (before rest : List Stmt)
    (items : List Cleanup) :
    defers (⟨head, before ++ items.map .cleanup, rest⟩ :: outer) =
      defers (⟨head, before, items.map .cleanup ++ rest⟩ :: outer) := by
  have hnone : ∀ between, defersAmong outer head between rest (items.map .cleanup) = [] := by
    induction items with
    | nil => exact fun _ => rfl
    | cons item items ih =>
      intro between
      rw [map_cons, defersAmong, ih, nil_append]
      rfl
  rw [defers, defersAmong_append, hnone, nil_append, defers]

end Point

/-- The points of the body of a function or special member, in the order in which they
stand. -/
def Block.points (body : Block) : List Point :=
  Point.pointsOf [] .body none body

/-- The bodies of a program: those of special members, then those of functions. -/
def Program.bodies (p : Program) : List Block :=
  p.ctorBlocks ++ p.functions.map Function.body

end DeferLang
