/-!
# Types

The types of values.  `unknown` stands for what could not be typed, so that one
error does not cause others.
-/

namespace DeferLang

inductive Ty where
  | int
  | bool
  | void
  /-- The type of string literals. -/
  | str
  | pointer (target : Ty)
  | reference (target : Ty)
  | array (elem : Ty) (size : Nat)
  | object (className : String)
  | function (params : List Ty) (result : Ty)
  /-- The type of `range(n)`. -/
  | sequence (elem : Ty)
  | unknown

namespace Ty

mutual

/-- Whether two types are the same. -/
def same : Ty → Ty → Bool
  | .int, .int => true
  | .bool, .bool => true
  | .void, .void => true
  | .str, .str => true
  | .pointer a, .pointer b => same a b
  | .reference a, .reference b => same a b
  | .array a m, .array b n => same a b && m == n
  | .object a, .object b => a == b
  | .function ps r, .function qs s => sameAll ps qs && same r s
  | .sequence a, .sequence b => same a b
  | .unknown, .unknown => true
  | _, _ => false
termination_by structural t => t

/-- Whether two lists of types are the same. -/
def sameAll : List Ty → List Ty → Bool
  | [], [] => true
  | a :: as, b :: bs => same a b && sameAll as bs
  | _, _ => false
termination_by structural ts => ts

end

mutual

theorem same_eq_true_iff : ∀ a b : Ty, same a b = true ↔ a = b
  | .int, b => by cases b <;> simp [same]
  | .bool, b => by cases b <;> simp [same]
  | .void, b => by cases b <;> simp [same]
  | .str, b => by cases b <;> simp [same]
  | .pointer a, b => by cases b <;> simp [same, same_eq_true_iff a]
  | .reference a, b => by cases b <;> simp [same, same_eq_true_iff a]
  | .array a m, b => by cases b <;> simp [same, same_eq_true_iff a]
  | .object a, b => by cases b <;> simp [same]
  | .function ps r, b => by
    cases b <;> simp [same, sameAll_eq_true_iff ps, same_eq_true_iff r]
  | .sequence a, b => by cases b <;> simp [same, same_eq_true_iff a]
  | .unknown, b => by cases b <;> simp [same]

theorem sameAll_eq_true_iff : ∀ as bs : List Ty, sameAll as bs = true ↔ as = bs
  | [], bs => by cases bs <;> simp [sameAll]
  | a :: as, bs => by
    cases bs <;> simp [sameAll, same_eq_true_iff a, sameAll_eq_true_iff as]

end

instance : DecidableEq Ty := fun a b =>
  decidable_of_iff (same a b = true) (same_eq_true_iff a b)

/-- The class of a value, also behind one reference. -/
def className? : Ty → Option String
  | .object name => some name
  | .reference (.object name) => some name
  | _ => none

/-- The type of what is read: one reference is looked through. -/
def deref : Ty → Ty
  | .reference target => target
  | t => t

mutual

/-- A type as messages show it. -/
def display : Ty → String
  | .int => "int"
  | .bool => "bool"
  | .void => "void"
  | .str => "string"
  | .pointer target => display target ++ "*"
  | .reference target => display target ++ "&"
  | .array elem size => display elem ++ "[" ++ Nat.repr size ++ "]"
  | .object className => className
  | .function params result =>
    "fn(" ++ ", ".intercalate (displayAll params) ++ ") -> " ++ display result
  | .sequence elem => "range<" ++ display elem ++ ">"
  | .unknown => "<unknown>"
termination_by structural t => t

/-- The members of a list of types as messages show them. -/
def displayAll : List Ty → List String
  | [] => []
  | t :: ts => display t :: displayAll ts
termination_by structural ts => ts

end

end Ty

end DeferLang
