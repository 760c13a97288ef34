/-!
# TOML documents

A document is a table of named values.  Headers and dotted keys open tables
inside tables; the rules below say which of them may be opened again.
-/

namespace DeferLang

namespace Toml

/-- How a table came to be. -/
inductive TableKind where
  /-- By its own header. -/
  | header
  /-- By a header of a table inside it. -/
  | implied
  /-- By a dotted key. -/
  | dotted
  /-- Between braces. -/
  | inline
deriving DecidableEq

/-- Values.  Of numbers with a fraction and of dates nothing but their kind is kept. -/
inductive Value where
  | str (text : String)
  | int (n : Int)
  | bool (b : Bool)
  | float
  | date
  | array (items : List Value)
  | table (kind : TableKind) (entries : List (String × Value))
  /-- The tables of a repeated header. -/
  | tables (items : List (List (String × Value)))

/-- The entries of a table, in the order in which their names first appeared. -/
abbrev Entries := List (String × Value)

namespace Entries

def replace (t : Entries) (name : String) (value : Value) : Entries :=
  t.map fun (n, v) => if n = name then (n, value) else (n, v)

def remove (t : Entries) (name : String) : Entries :=
  t.filter (·.1 ≠ name)

/-- Add an entry at the end, unless there is one of that name. -/
def add? (t : Entries) (name : String) (value : Value) : Option Entries :=
  match t.lookup name with
  | some _ => none
  | none => some (t ++ [(name, value)])

/-- Change the table at the end of a path.  Tables on the way are opened where they are
missing, by dotted keys or by headers; dotted keys do not pass tables with a header of their
own, and nothing passes other values.  A repeated header stands for its last table. -/
def descend {α : Type} (dotted : Bool) (change : TableKind → Entries → Option (Entries × α)) :
    List String → TableKind → Entries → Option (Entries × α)
  | [], kind, t => change kind t
  | name :: path, _, t =>
    match t.lookup name with
    | none => do
        let opened := if dotted then TableKind.dotted else TableKind.implied
        let (inner, a) ← descend dotted change path opened []
        return (t ++ [(name, .table opened inner)], a)
    | some (.table kind inner) => do
        guard (kind ≠ .inline ∧ (dotted = false ∨ kind ≠ .header))
        let (inner, a) ← descend dotted change path kind inner
        return (replace t name (.table kind inner), a)
    | some (.tables items) => do
        let last ← items.getLast?
        let (inner, a) ← descend dotted change path .header last
        return (replace t name (.tables (items.dropLast ++ [inner])), a)
    | some _ => none

/-- Add the value of a key, which may be dotted, to a table of a kind. -/
def addKey? (kind : TableKind) (t : Entries) (path : List String) (name : String)
    (value : Value) : Option Entries := do
  let (t, _) ← descend true
    (fun found inner => do
      guard ((found = .dotted) ≠ path.isEmpty)
      return (← add? inner name value, ()))
    path kind t
  return t

/-- The table of key and value pairs between braces. -/
def ofPairs? (pairs : List (List String × String × Value)) : Option Entries :=
  pairs.foldlM (fun t (path, name, value) => addKey? .inline t path name value) []

end Entries

/-- A document that is being read: what is finished, and the table of the latest header. -/
structure Draft where
  finished : Entries := []
  current : Entries := []
  /-- The path of the latest header, if there was one. -/
  header : Option (List String × String) := none
  /-- Whether that header is a repeated one. -/
  isRepeated : Bool := false

namespace Draft

/-- Put the table of the latest header into its place. -/
def finish? (d : Draft) : Option Entries :=
  match d.header with
  | none => some d.current
  | some (path, name) => do
      let (t, _) ← Entries.descend false
        (fun _ t =>
          if d.isRepeated then
            match t.lookup name with
            | some (.tables items) =>
              some (t.replace name (.tables (items ++ [d.current])), ())
            | _ => none
          else do
            return (← t.add? name (.table .header d.current), ()))
        path .header d.finished
      return t

/-- Start the table of a header.  A table that headers inside it have opened already is
taken over. -/
def startTable? (d : Draft) (path : List String) (name : String) : Option Draft := do
  let finished ← d.finish?
  let (finished, current) ← Entries.descend false
    (fun _ t =>
      match t.lookup name with
      | none => some (t, [])
      | some (.table .implied inner) => some (t.remove name, inner)
      | some _ => none)
    path .header finished
  return { finished, current, header := some (path, name), isRepeated := false }

/-- Start another table of a repeated header. -/
def startRepeated? (d : Draft) (path : List String) (name : String) : Option Draft := do
  let finished ← d.finish?
  let (finished, _) ← Entries.descend false
    (fun _ t =>
      match t.lookup name with
      | none => some (t ++ [(name, .tables [])], ())
      | some (.tables _) => some (t, ())
      | some _ => none)
    path .header finished
  return { finished, current := [], header := some (path, name), isRepeated := true }

/-- Add a key and its value to the table of the latest header. -/
def addKey? (d : Draft) (path : List String) (name : String) (value : Value) :
    Option Draft := do
  return { d with current := ← d.current.addKey? .header path name value }

end Draft

end Toml

end DeferLang
