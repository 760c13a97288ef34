import DeferLang.Diagnostic.Basic
import DeferLang.Program.Basic
import DeferLang.Token.Basic
import DeferLang.Ty.Basic

/-!
# Faults of names and types

What checking can find wrong with a program, with the one place where each
fault is worded.
-/

namespace DeferLang

/-- The name of the built-in output routine. -/
def printName : String :=
  "print"

/-- What is wrong with the names or types of a program. -/
inductive TypingFault where
  | undeclared (name : String)
  | forOverNonRange (found : Ty)
  | cannotHold (name : String) (type : Ty)
  | referenceWithoutInit (name : String)
  | conditionNotBool (construct : String) (found : Ty)
  | notPrintable (type : Ty)
  | rangeInCleanup
  | mismatch (expected found : Ty)
  | rangeOfNonInt (found : Ty)
  | operandType (op : BinOp) (expected found : Ty)
  | incomparable (left right : Ty)
  | notAssignable
  | constAssigned (name : String)
  | referenceToValue (name : String)
  | redeclared (name : String)
  | duplicateField (name : String)
  | unusedLocal (name : String)
  | unknownType (name : String)
  | autoWithModifier
  | autoWithoutInit (name : String)
  | unknownField (className field : String)
  | fieldOfNonClass (field : String) (type : Ty)
  | intOutOfRange (value : Nat)
  | duplicateClass (name : String)
  | unknownFunction (name : String)
  | printArity (count : Nat)
  | arity (callee : String) (count : Nat)
  | builtinRedefined
  | duplicateFunction (name : String)
  | duplicateCtor (kind : CtorKind) (className : String)
  | voidField (name : String)
  | voidVariable (name : String)
  | returnValue
  | deletedMember (name : String) (kind : CtorKind) (className : String)
  | readBeforeStore (name : String)
deriving DecidableEq

namespace TypingFault

def code : TypingFault → Nat
  | .undeclared _ => 4001
  | .forOverNonRange _ => 4002
  | .cannotHold _ _ => 4002
  | .referenceWithoutInit _ => 4002
  | .conditionNotBool _ _ => 4002
  | .notPrintable _ => 4002
  | .rangeInCleanup => 4002
  | .mismatch _ _ => 4002
  | .rangeOfNonInt _ => 4002
  | .operandType _ _ _ => 4002
  | .incomparable _ _ => 4002
  | .notAssignable => 4003
  | .constAssigned _ => 4003
  | .referenceToValue _ => 4003
  | .redeclared _ => 4004
  | .duplicateField _ => 4004
  | .unusedLocal _ => 4005
  | .unknownType _ => 4006
  | .autoWithModifier => 4006
  | .autoWithoutInit _ => 4006
  | .unknownField _ _ => 4007
  | .fieldOfNonClass _ _ => 4008
  | .intOutOfRange _ => 4009
  | .duplicateClass _ => 4010
  | .unknownFunction _ => 4011
  | .printArity _ => 4012
  | .arity _ _ => 4012
  | .builtinRedefined => 4013
  | .duplicateFunction _ => 4013
  | .duplicateCtor _ _ => 4014
  | .voidField _ => 4015
  | .voidVariable _ => 4015
  | .returnValue => 4016
  | .deletedMember _ _ _ => 4017
  | .readBeforeStore _ => 4018

def message : TypingFault → String
  | .undeclared name => "use of undeclared identifier " ++ quoted name
  | .forOverNonRange found => "`for` expects `range<int>`, found " ++ quoted found.display
  | .cannotHold name type =>
    "variable " ++ quoted name ++ " cannot hold a value of type " ++ quoted type.display
  | .referenceWithoutInit name => "reference " ++ quoted name ++ " must be initialized"
  | .conditionNotBool construct found =>
    quoted construct ++ " condition must be `bool`, found " ++ quoted found.display
  | .notPrintable type => "cannot print a value of type " ++ quoted type.display
  | .rangeInCleanup => "a range cannot be passed to a cleanup routine"
  | .mismatch expected found =>
    "mismatched types: expected " ++ quoted expected.display ++ ", found " ++
      quoted found.display
  | .rangeOfNonInt found => "`range` expects `int`, found " ++ quoted found.display
  | .operandType op expected found =>
    "operator " ++ quoted op.symbol ++ " expects " ++ quoted expected.display ++ ", found " ++
      quoted found.display
  | .incomparable left right =>
    "cannot compare " ++ quoted left.display ++ " with " ++ quoted right.display
  | .notAssignable => "left-hand side of assignment is not assignable"
  | .constAssigned name => "cannot assign to const " ++ quoted name
  | .referenceToValue name =>
    "reference " ++ quoted name ++ " must bind to an assignable value"
  | .redeclared name => quoted name ++ " is already declared in this scope"
  | .duplicateField name => "field " ++ quoted name ++ " is declared more than once"
  | .unusedLocal name => "unused local " ++ quoted name
  | .unknownType name => "unknown type " ++ quoted name
  | .autoWithModifier => "`auto` cannot be combined with `*` or `&`"
  | .autoWithoutInit name =>
    "cannot infer the type of " ++ quoted name ++ " without an initializer"
  | .unknownField className field =>
    "class " ++ quoted className ++ " has no field " ++ quoted field
  | .fieldOfNonClass field type =>
    "field access " ++ quoted ("." ++ field) ++ " on a value of type " ++ quoted type.display
  | .intOutOfRange value =>
    "integer literal " ++ quoted (Nat.repr value) ++ " does not fit in `int`"
  | .duplicateClass name => "class " ++ quoted name ++ " is defined more than once"
  | .unknownFunction name => "call to unknown function " ++ quoted name
  | .printArity count =>
    quoted printName ++ " takes exactly one argument, found " ++ Nat.repr count
  | .arity callee count => quoted callee ++ " takes no arguments, found " ++ Nat.repr count
  | .builtinRedefined => quoted printName ++ " is a builtin function and cannot be redefined"
  | .duplicateFunction name => "function " ++ quoted name ++ " is defined more than once"
  | .duplicateCtor kind className =>
    kind.describe ++ " of " ++ quoted className ++ " is declared more than once"
  | .voidField name => "field " ++ quoted name ++ " cannot have type `void`"
  | .voidVariable name => "variable " ++ quoted name ++ " cannot have type `void`"
  | .returnValue => "functions do not return values"
  | .deletedMember name kind className =>
    quoted name ++ " needs the " ++ kind.describe ++ " of " ++ quoted className ++
      ", which is deleted"
  | .readBeforeStore name => quoted name ++ " is read before anything is stored in it"

def help : TypingFault → Option String
  | .cannotHold _ _ => some "pass string literals to `print` and ranges to `for` directly"
  | .unusedLocal name => some ("prefix it with an underscore: " ++ quoted ("_" ++ name))
  | .unknownFunction _ => some "runtime cleanup routines may only be called from `defer`"
  | .returnValue => some "use `return;`"
  | .deletedMember _ kind _ => some ("remove `= delete` from the " ++ kind.describe)
  | .readBeforeStore _ =>
    some "give it an initializer; the emitter stores zero otherwise"
  | _ => none

/-- Unused variables and reads before a store are warned about; all else is an error. -/
def severity : TypingFault → Severity
  | .unusedLocal _ => .warning
  | .readBeforeStore _ => .warning
  | _ => .error

end TypingFault

/-- A fault and where it was found. -/
structure TypingError where
  fault : TypingFault
  span : Span
deriving DecidableEq

/-- The diagnostic for a fault of a file's program. -/
def TypingError.toDiagnostic (source : Source) (e : TypingError) : Diagnostic where
  layer := .semantic
  severity := e.fault.severity
  code := e.fault.code
  message := e.fault.message
  anchors := [Anchor.ofSpan source e.span]
  suggestions := e.fault.help.toList

end DeferLang
