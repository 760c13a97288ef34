import DeferLang.Diagnostic.Basic
import DeferLang.Symbol.Basic

/-!
# Cleanup orders

For every scope, `ScopeCleanup` holds the order in which its variables are
cleaned up: the order for a `return`, which covers the enclosing scopes too,
and the order for falling off the end.  A `defer` brings its variables to the
front of both.  The front of an order runs first.
-/

namespace DeferLang

/-- What a scope is the body of. -/
inductive ScopeKind where
  | body
  | block
  | thenBranch
  | elseBranch
  | whileBody
  | forBody
deriving DecidableEq

namespace ScopeKind

/-- Whether the scope can run any number of times, depending on the path taken. -/
def isConditional : ScopeKind → Bool
  | .body => false
  | .block => false
  | .thenBranch => true
  | .elseBranch => true
  | .whileBody => true
  | .forBody => true

/-- The name of a scope in messages. -/
def label : ScopeKind → String
  | .body => "function body"
  | .block => "block"
  | .thenBranch => "`if` body"
  | .elseBranch => "`else` body"
  | .whileBody => "`while` body"
  | .forBody => "`for` body"

end ScopeKind

/-- What a `defer` does to one variable: bring it to the front, and register an action. -/
structure DeferEffect where
  var : SymbolId
  span : Span
  action : CleanupAction
deriving DecidableEq

/-- Bring the first occurrence of a variable to the front of an order, if there is one. -/
def bumpToFront (var : SymbolId) (order : List SymbolId) : List SymbolId :=
  if var ∈ order then var :: order.erase var else order

/-- The cleanup orders of one scope. -/
structure ScopeCleanup where
  block : NodeId
  span : Span
  kind : ScopeKind
  hasReturn : Bool := false
  /-- What a `return` cleans up here, enclosing scopes included. -/
  returnOrder : List SymbolId := []
  /-- The same variables in the order for the end of the scope. -/
  scopeEndOrder : List SymbolId := []
  /-- The variables declared in this scope. -/
  locals : List SymbolId := []
  /-- The actions registered on variables, latest first. -/
  registered : List (SymbolId × CleanupAction) := []
  /-- The effects on variables of enclosing scopes, in order. -/
  inherited : List DeferEffect := []
deriving DecidableEq

namespace ScopeCleanup

/-- The orders of a scope inside another: they start from the outer order for a `return`. -/
def nested (outer : ScopeCleanup) (block : NodeId) (span : Span) (kind : ScopeKind) :
    ScopeCleanup where
  block := block
  span := span
  kind := kind
  returnOrder := outer.returnOrder
  scopeEndOrder := outer.returnOrder
  registered := outer.registered

/-- Whether the scope can run any number of times. -/
def isConditional (t : ScopeCleanup) : Bool :=
  t.kind.isConditional

/-- A declared variable goes to the back of both orders. -/
def declare (t : ScopeCleanup) (var : SymbolId) : ScopeCleanup :=
  { t with
    returnOrder := t.returnOrder ++ [var]
    scopeEndOrder := t.scopeEndOrder ++ [var]
    locals := t.locals ++ [var] }

/-- Whether a variable is declared in this very scope. -/
def isLocal (t : ScopeCleanup) (var : SymbolId) : Bool :=
  var ∈ t.locals

/-- Whether a variable is cleaned up by a `return` here. -/
def tracks (t : ScopeCleanup) (var : SymbolId) : Bool :=
  var ∈ t.returnOrder

/-- Bring a variable to the front of both orders. -/
def bump (t : ScopeCleanup) (var : SymbolId) : ScopeCleanup :=
  { t with
    returnOrder := bumpToFront var t.returnOrder
    scopeEndOrder := bumpToFront var t.scopeEndOrder }

/-- Bring a variable to the front, and register an action before earlier ones. -/
def apply (t : ScopeCleanup) (e : DeferEffect) : ScopeCleanup :=
  { t.bump e.var with registered := (e.var, e.action) :: t.registered }

/-- The actions that clean up a variable, in the order in which they run.  Without a deferred
action it is destroyed. -/
def actions (t : ScopeCleanup) (var : SymbolId) : List CleanupAction :=
  match t.registered.filterMap fun (v, action) => if v = var then some action else none with
  | [] => [.destructor]
  | found => found

/-- What falling off the end cleans up: the scope's own variables. -/
def fallOffOrder (t : ScopeCleanup) : List SymbolId :=
  t.scopeEndOrder.filter t.isLocal

/-- Whether both orders hold the same variables equally often. -/
def isConsistent (t : ScopeCleanup) : Bool :=
  t.returnOrder.isPerm t.scopeEndOrder

/-- The scope, as diagnostics refer to it. -/
def note (t : ScopeCleanup) : ScopeNote :=
  ⟨t.block, t.span, t.kind.label⟩

/-- Keep an effect on a variable of an enclosing scope for that scope. -/
def inherit (t : ScopeCleanup) (e : DeferEffect) : ScopeCleanup :=
  if t.isLocal e.var then t else { t with inherited := t.inherited ++ [e] }

/-- Apply the effects of a `defer` in this scope. -/
def applyAll (t : ScopeCleanup) (es : List DeferEffect) : ScopeCleanup :=
  es.foldl (fun t e => (t.apply e).inherit e) t

/-- Apply the effects that a finished plain block had on variables around it.  A scope that
may not run keeps them to itself. -/
def replay (t : ScopeCleanup) (es : List DeferEffect) : ScopeCleanup :=
  es.foldl (fun t e => if t.isConditional then t.apply e else (t.apply e).inherit e) t

/-- Note that the scope holds a `return`, if a scope inside it does. -/
def noteReturn (t inner : ScopeCleanup) : ScopeCleanup :=
  { t with hasReturn := t.hasReturn || inner.hasReturn }

end ScopeCleanup

end DeferLang
