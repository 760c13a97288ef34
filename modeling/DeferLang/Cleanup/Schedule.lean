import DeferLang.Cleanup.Order
import DeferLang.Token.Basic
import DeferLang.Typing.Context

/-!
# Scheduling cleanup

Scheduling puts the cleanup of variables in front of every exit of a program:
every `return`, and the end of every block that does not end in one.  Nothing
else of the program changes.

A `defer` in a scope that may not run can only touch variables of enclosing
scopes if a `return` follows it there; any other `defer` of that kind is
reported and has no effect.
-/

namespace DeferLang

/-- What is wrong with a `defer`, or with the program as a whole. -/
inductive CleanupFault where
  | earlierErrors
  | foreignContext
  | conditionalDefer (name : String) (kind : ScopeKind)
  | deferWithoutLocal (callee : String)
deriving DecidableEq

namespace CleanupFault

def code : CleanupFault → Nat
  | .earlierErrors => 5000
  | .foreignContext => 5000
  | .conditionalDefer _ _ => 5001
  | .deferWithoutLocal _ => 5002

def message : CleanupFault → String
  | .earlierErrors => "cleanup analysis requires a fully checked program"
  | .foreignContext => "cleanup analysis requires a fully checked program"
  | .conditionalDefer name kind =>
    "`defer` of " ++ quoted name ++ " inside " ++ kind.label ++
      " needs a `return` in the same scope"
  | .deferWithoutLocal callee =>
    quoted ("defer " ++ callee ++ "(...)") ++ " does not name a local variable"

def detail : CleanupFault → Option String
  | .earlierErrors => some "earlier passes reported blocking diagnostics"
  | .foreignContext => some "the semantic context was not produced for this program"
  | .conditionalDefer name _ =>
    some (quoted name ++ " is declared in an enclosing scope, so reordering its cleanup " ++
      "here would only apply on some paths")
  | .deferWithoutLocal _ => none

def suggestions : CleanupFault → List String
  | .conditionalDefer name _ =>
    ["add `return;` after the `defer`, or move it next to the declaration of " ++ quoted name]
  | .deferWithoutLocal _ => ["pass the variable to clean up as an argument"]
  | .earlierErrors => []
  | .foreignContext => []

/-- A program that cannot be scheduled at all is fatal. -/
def severity : CleanupFault → Severity
  | .earlierErrors => .fatal
  | .foreignContext => .fatal
  | .conditionalDefer _ _ => .error
  | .deferWithoutLocal _ => .error

end CleanupFault

/-- A fault, with its place and scope unless it concerns the whole program. -/
structure CleanupError where
  fault : CleanupFault
  place : Option (Span × ScopeNote) := none
deriving DecidableEq

/-- The diagnostic for a fault of a file's program. -/
def CleanupError.toDiagnostic (source : Source) (e : CleanupError) : Diagnostic where
  layer := .cleanup
  severity := e.fault.severity
  code := e.fault.code
  message := e.fault.message
  anchors := e.place.toList.map fun (span, _) => Anchor.ofSpan source span
  scope := e.place.map Prod.snd
  detail := e.fault.detail
  suggestions := e.fault.suggestions

/-- The two ways of leaving a block. -/
inductive ExitKind where
  | ret
  | fallOff
deriving DecidableEq

/-- The cleanup at one exit. -/
structure ExitCleanup where
  kind : ExitKind
  block : NodeId
  span : Span
  sequence : List Cleanup
deriving DecidableEq

/-- The exits of a function or special member, in source order. -/
structure CleanupReport where
  function : String
  exits : List ExitCleanup
deriving DecidableEq

/-- A program with its cleanup, and where the cleanup went. -/
structure ScheduledProgram where
  program : Program
  reports : List CleanupReport
deriving BEq

namespace Cleanup

/-- The cleanup of variables in order, at an exit.  Each variable is cleaned up by all its
actions before the next. -/
def sequence (ctx : Context) (t : ScopeCleanup) (order : List SymbolId) (exit : Span) :
    List Cleanup :=
  order.flatMap fun var =>
    match ctx.symbols.get? var with
    | none => []
    | some s => (t.actions var).map fun action => ⟨exit, ⟨s.name, exit⟩, s.decl, action⟩

/-- The variables that a deferred call names as plain arguments, each once, with the first
place of each. -/
def deferredVars (ctx : Context) (t : ScopeCleanup) (args : List Expr) : List (SymbolId × Span) :=
  args.foldl
    (fun found arg =>
      match arg with
      | .var id name =>
        match ctx.resolve? id with
        | some var =>
          if t.tracks var ∧ (found.lookup var).isNone then found ++ [(var, name.span)]
          else found
        | none => found
      | _ => found)
    []

/-- The effects of a deferred call on its variables, last first, so that the first variable
ends up in front.  The call runs when its first variable is cleaned up and releases the
others with it. -/
def deferEffects (ctx : Context) (call : Call) : List (SymbolId × Span) → List DeferEffect
  | [] => []
  | (var, span) :: others =>
    let owner := ctx.symbols.name var
    (others.map fun (v, s) => ⟨v, s, .releasedBy owner⟩).reverse ++
      [⟨var, span, .deferred call⟩]

/-- The faults of effects in a scope: without a `return` behind it, a scope that may not run
must not touch variables of enclosing scopes. -/
def deferFaults (ctx : Context) (t : ScopeCleanup) (returnFollows : Bool)
    (effects : List DeferEffect) : List CleanupError :=
  if t.isConditional ∧ returnFollows = false then
    (effects.filter fun e => !t.isLocal e.var).map fun e =>
      ⟨.conditionalDefer (ctx.symbols.name e.var) t.kind, some (e.span, t.note)⟩
  else
    []

/-- The orders after a `defer`, and its faults.  With any fault the orders stay. -/
def planDefer (ctx : Context) (t : ScopeCleanup) (call : Call) (returnFollows : Bool) :
    ScopeCleanup × List CleanupError :=
  let effects := deferEffects ctx call (deferredVars ctx t call.args)
  if effects.isEmpty then
    (t, [⟨.deferWithoutLocal call.callee.name, some (call.span, t.note)⟩])
  else
    let faults := deferFaults ctx t returnFollows effects
    if faults.isEmpty then (t.applyAll effects, []) else (t, faults)

/-- What planning makes of a piece of program: the piece with its cleanup, the orders behind
it, its exits and its faults. -/
structure Planned (α : Type) where
  value : α
  orders : ScopeCleanup
  exits : List ExitCleanup := []
  errors : List CleanupError := []

/-- The orders at the start of a block. -/
def entryOrders (outer : Option ScopeCleanup) (block : NodeId) (span : Span) (kind : ScopeKind)
    (loopVar : Option SymbolId) : ScopeCleanup :=
  let start := match outer with
    | none => { block, span, kind }
    | some t => t.nested block span kind
  match loopVar with
  | none => start
  | some var => start.declare var

/-- The brace that closes a block. -/
def closingBrace (block : Span) : Span :=
  ⟨block.stop - 1, 1⟩

/-- Close a block whose statements are planned: unless they end in a `return`, its own
variables are cleaned up at its end. -/
def planEnd (ctx : Context) (id : NodeId) (span : Span) (body : Planned (List Stmt)) :
    Planned Block :=
  if endsWithReturn body.value then
    ⟨⟨id, span, body.value⟩, body.orders, body.exits, body.errors⟩
  else
    let close := closingBrace span
    let cleanups := sequence ctx body.orders body.orders.fallOffOrder close
    ⟨⟨id, span, body.value ++ cleanups.map .cleanup⟩, body.orders,
      body.exits ++ [⟨.fallOff, id, close, cleanups⟩], body.errors⟩

/-- A `return` with the cleanup of everything in scope in front. -/
def planReturn (ctx : Context) (t : ScopeCleanup) (span : Span) (value : Option Expr) :
    Planned (List Stmt) :=
  let cleanups := sequence ctx t t.returnOrder span
  ⟨cleanups.map .cleanup ++ [.ret span value], { t with hasReturn := true },
    [⟨.ret, t.block, span, cleanups⟩], []⟩

mutual

/-- Plan a statement.  `returnFollows` says whether a `return` stands behind it in its own
block.  Cleanup statements of an earlier planning vanish. -/
def planStmt (ctx : Context) (t : ScopeCleanup) (returnFollows : Bool) :
    Stmt → Planned (List Stmt)
  | .varDecl d =>
    let orders := match ctx.declSymbol? d.id with
      | some var => t.declare var
      | none => t
    { value := [.varDecl d], orders }
  | .defer span call =>
    let (orders, errors) := planDefer ctx t call returnFollows
    { value := [.defer span call], orders, errors }
  | .ret span value => planReturn ctx t span value
  | .block body =>
    let b := planBlock ctx (some t) .block none body
    ⟨[.block b.value], (t.replay b.orders.inherited).noteReturn b.orders, b.exits, b.errors⟩
  | .ifElse span cond thenBody none =>
    let a := planBlock ctx (some t) .thenBranch none thenBody
    ⟨[.ifElse span cond a.value none], t.noteReturn a.orders, a.exits, a.errors⟩
  | .ifElse span cond thenBody (some elseBody) =>
    let a := planBlock ctx (some t) .thenBranch none thenBody
    let b := planBlock ctx (some t) .elseBranch none elseBody
    ⟨[.ifElse span cond a.value (some b.value)],
      (t.noteReturn a.orders).noteReturn b.orders, a.exits ++ b.exits, a.errors ++ b.errors⟩
  | .whileLoop span cond body =>
    let b := planBlock ctx (some t) .whileBody none body
    ⟨[.whileLoop span cond b.value], t.noteReturn b.orders, b.exits, b.errors⟩
  | .forIn id span var iter body =>
    let b := planBlock ctx (some t) .forBody (ctx.declSymbol? id) body
    ⟨[.forIn id span var iter b.value], t.noteReturn b.orders, b.exits, b.errors⟩
  | .assign span target value => { value := [.assign span target value], orders := t }
  | .call span call => { value := [.call span call], orders := t }
  | .cleanup _ => { value := [], orders := t }
termination_by structural s => s

/-- Plan a block inside a scope, or at the top of a body. -/
def planBlock (ctx : Context) (outer : Option ScopeCleanup) (kind : ScopeKind)
    (loopVar : Option SymbolId) : BlockOf Stmt → Planned Block
  | ⟨id, span, stmts⟩ =>
    planEnd ctx id span (planStmts ctx (entryOrders outer id span kind loopVar) stmts)
termination_by structural b => b

/-- Plan the statements of a block in order. -/
def planStmts (ctx : Context) (t : ScopeCleanup) : List Stmt → Planned (List Stmt)
  | [] => { value := [], orders := t }
  | s :: ss =>
    let first := planStmt ctx t (ss.any Stmt.isReturn) s
    let rest := planStmts ctx first.orders ss
    ⟨first.value ++ rest.value, rest.orders, first.exits ++ rest.exits,
      first.errors ++ rest.errors⟩
termination_by structural ss => ss

end

/-- Plan the body of a function or special member. -/
def planBody (ctx : Context) (body : Block) : Planned Block :=
  planBlock ctx none .body none body

/-- The name of a special member in reports. -/
def memberName (className : String) (kind : CtorKind) : String :=
  className ++ "::" ++ kind.describe

/-- Plan a special member; those without a body have nothing to plan. -/
def planCtor (ctx : Context) (className : String) (c : CtorDecl) :
    CtorDecl × List CleanupReport × List CleanupError :=
  match c.body with
  | .body block =>
    let b := planBody ctx block
    ({ c with body := .body b.value }, [⟨memberName className c.kind, b.exits⟩], b.errors)
  | .defaulted => (c, [], [])
  | .deleted => (c, [], [])

def planClass (ctx : Context) (c : ClassDef) : ClassDef × List CleanupReport × List CleanupError :=
  let members := c.ctors.map (planCtor ctx c.name.name)
  ({ c with ctors := members.map (·.1) }, members.flatMap (·.2.1), members.flatMap (·.2.2))

def planFunction (ctx : Context) (f : Function) : Function × CleanupReport × List CleanupError :=
  let b := planBody ctx f.body
  ({ f with body := b.value }, ⟨f.name.name, b.exits⟩, b.errors)

end Cleanup

/-- The program with its cleanup, and the faults of its `defer`s, in order. -/
def Program.planCleanup (ctx : Context) (p : Program) : ScheduledProgram × List CleanupError :=
  let classes := p.classes.map (Cleanup.planClass ctx)
  let functions := p.functions.map (Cleanup.planFunction ctx)
  ({ program := { p with classes := classes.map (·.1), functions := functions.map (·.1) }
     reports := classes.flatMap (·.2.1) ++ functions.map (·.2.1) },
    classes.flatMap (·.2.2) ++ functions.flatMap (·.2.2))

/-- Schedule the cleanup of a checked program.  Without blocking diagnostics so far, and with
tables made for this very program, there is a result; otherwise there is one fatal fault. -/
def Program.scheduleCleanup (ctx : Context) (p : Program) (sofar : Diagnostics) :
    Option ScheduledProgram × List CleanupError :=
  if sofar.hasBlocking then
    (none, [{ fault := .earlierErrors }])
  else if ctx.covers p then
    let (scheduled, errors) := p.planCleanup ctx
    (some scheduled, errors)
  else
    (none, [{ fault := .foreignContext }])

end DeferLang
