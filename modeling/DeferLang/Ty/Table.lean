import DeferLang.Ty.Basic

/-!
# Numbered types

A `TypeTable` numbers types densely.  A numbered type is one layer that refers
to its parts by number, so equal types have equal numbers, and a type can be
compared and copied as a number.
-/

namespace DeferLang

/-- The number of a type in a table. -/
abbrev TypeId := Nat

/-- One layer of a type, over the numbers of its parts. -/
inductive TypeKind where
  | int
  | bool
  | void
  | str
  | pointer (target : TypeId)
  | reference (target : TypeId)
  | array (elem : TypeId) (size : Nat)
  | object (className : String)
  | function (params : List TypeId) (result : TypeId)
  | sequence (elem : TypeId)
  | unknown
deriving DecidableEq

/-- The numbers that a layer refers to. -/
def TypeKind.parts : TypeKind → List TypeId
  | .pointer target => [target]
  | .reference target => [target]
  | .array elem _ => [elem]
  | .function params result => params ++ [result]
  | .sequence elem => [elem]
  | _ => []

/-- The type that a layer makes of the types of its parts. -/
def TypeKind.over (type : TypeId → Ty) : TypeKind → Ty
  | .int => .int
  | .bool => .bool
  | .void => .void
  | .str => .str
  | .pointer target => .pointer (type target)
  | .reference target => .reference (type target)
  | .array elem size => .array (type elem) size
  | .object className => .object className
  | .function params result => .function (params.map type) (type result)
  | .sequence elem => .sequence (type elem)
  | .unknown => .unknown

/-- The numbered types, each at its number, and the number of each. -/
structure TypeTable where
  kinds : List TypeKind
  index : List (TypeKind × TypeId)

namespace TypeTable

/-- The number of `unknown` in every table. -/
def unknownId : TypeId :=
  4

/-- Number a type; a type that has a number keeps it. -/
def intern (t : TypeTable) (kind : TypeKind) : TypeTable × TypeId :=
  match t.index.lookup kind with
  | some id => (t, id)
  | none => (⟨t.kinds ++ [kind], (kind, t.kinds.length) :: t.index⟩, t.kinds.length)

/-- The table of the types without parts. -/
def base : TypeTable :=
  [TypeKind.int, .bool, .void, .str, .unknown].foldl (fun t kind => (t.intern kind).1) ⟨[], []⟩

/-- The layer with a number; numbers not in use stand for `unknown`. -/
def kind (t : TypeTable) (id : TypeId) : TypeKind :=
  t.kinds.getD id .unknown

/-- The type with a number, unfolded through at most `depth` layers. -/
def expandWithin (t : TypeTable) : Nat → TypeId → Ty
  | 0, _ => .unknown
  | depth + 1, id => (t.kind id).over (t.expandWithin depth)

/-- The type with a number.  The parts of a type have smaller numbers, so its number bounds
its layers. -/
def expand (t : TypeTable) (id : TypeId) : Ty :=
  t.expandWithin (id + 1) id

/-- The class of a value, also behind one reference. -/
def className? (t : TypeTable) (id : TypeId) : Option String :=
  match t.kind id with
  | .object name => some name
  | .reference target =>
    match t.kind target with
    | .object name => some name
    | _ => none
  | _ => none

/-- The type of what is read: one reference is looked through. -/
def deref (t : TypeTable) (id : TypeId) : TypeId :=
  match t.kind id with
  | .reference target => target
  | _ => id

/-- A numbered type as messages show it. -/
def display (t : TypeTable) (id : TypeId) : String :=
  (t.expand id).display

end TypeTable

end DeferLang
