import DeferLang.Program.Basic
import DeferLang.Ty.Basic

/-!
# Symbols and scopes

Every declaration makes a symbol.  Scopes map names to symbols; names are
looked up from the innermost scope outwards, and a name can be declared once in
a scope.
-/

namespace DeferLang

/-- The number of a symbol in the order of declaration. -/
abbrev SymbolId := Nat

/-- What declares a symbol. -/
inductive SymbolKind where
  | local
  | loopVar
deriving DecidableEq

/-- A declared variable. -/
structure Symbol where
  name : String
  type : Ty
  kind : SymbolKind
  /-- Whether something was stored by now: an initializer, a default construction, or an
  assignment that stands earlier. -/
  initialized : Bool
  isConst : Bool
  decl : NodeId
  span : Span
  used : Bool
deriving DecidableEq

/-- All symbols, each at its number. -/
structure SymbolTable where
  symbols : List Symbol := []
deriving DecidableEq

namespace SymbolTable

/-- Add a symbol; it gets the next number. -/
def add (t : SymbolTable) (s : Symbol) : SymbolTable × SymbolId :=
  (⟨t.symbols ++ [s]⟩, t.symbols.length)

def get? (t : SymbolTable) (id : SymbolId) : Option Symbol :=
  t.symbols[id]?

/-- Change the symbol with a number. -/
def update (t : SymbolTable) (id : SymbolId) (f : Symbol → Symbol) : SymbolTable :=
  ⟨t.symbols.modify id f⟩

/-- The name of a symbol, or a placeholder. -/
def name (t : SymbolTable) (id : SymbolId) : String :=
  match t.get? id with
  | some s => s.name
  | none => "<?>"

end SymbolTable

/-- The names declared in a block, in the order of declaration. -/
structure Scope where
  block : NodeId
  entries : List (String × SymbolId) := []
deriving DecidableEq

namespace Scope

def get? (s : Scope) (name : String) : Option SymbolId :=
  s.entries.lookup name

/-- Declare a name, unless it is taken. -/
def insert? (s : Scope) (name : String) (id : SymbolId) : Option Scope :=
  match s.get? name with
  | some _ => none
  | none => some { s with entries := s.entries ++ [(name, id)] }

/-- The symbols of a scope in the order of declaration. -/
def symbols (s : Scope) : List SymbolId :=
  s.entries.map Prod.snd

end Scope

/-- The open scopes, innermost first. -/
abbrev ScopeStack := List Scope

namespace ScopeStack

/-- The symbol that a name stands for. -/
def lookup (scopes : ScopeStack) (name : String) : Option SymbolId :=
  scopes.findSome? fun s => s.get? name

end ScopeStack

end DeferLang
