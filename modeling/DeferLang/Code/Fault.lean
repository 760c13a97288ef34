import DeferLang.Code.Verify
import DeferLang.Diagnostic.Basic
import DeferLang.Token.Basic
import DeferLang.Ty.Basic

/-!
# Faults of lowering

What cannot be expressed in target code, with the one place where each fault
is worded.
-/

namespace DeferLang

namespace Code

/-- The largest number of times that a loop body is repeated. -/
def maxUnroll : Nat :=
  4096

/-- What lowering cannot express. -/
inductive LowerFault where
  | printCollision (name : String)
  | assignTarget
  | boundNotLiteral
  | boundTooLarge (count : Nat)
  | argumentType (type : Ty) (callee : String)
  | conflictingCalls (callee : String)
  | expression
  | localType (type : Ty)
deriving DecidableEq

namespace LowerFault

def code : LowerFault → Nat
  | .boundNotLiteral => 6001
  | .printCollision _ => 6003
  | .assignTarget => 6003
  | .boundTooLarge _ => 6003
  | .argumentType _ _ => 6003
  | .conflictingCalls _ => 6003
  | .expression => 6003
  | .localType _ => 6003

def message : LowerFault → String
  | .printCollision name =>
    "function " ++ quoted name ++ " collides with the runtime print routine"
  | .assignTarget => "only plain variables can be assigned in emitted code"
  | .boundNotLiteral => "`for` loops need a literal `range` bound"
  | .boundTooLarge count =>
    quoted ("range(" ++ Nat.repr count ++ ")") ++ " is too large to unroll (limit " ++
      Nat.repr maxUnroll ++ ")"
  | .argumentType type callee =>
    "cannot pass a value of type " ++ quoted type.display ++ " to " ++ quoted callee
  | .conflictingCalls callee =>
    quoted callee ++ " is called with conflicting argument types"
  | .expression => "expression is not supported by the emitter"
  | .localType type =>
    "locals of type " ++ quoted type.display ++ " are not supported by the emitter"

def help : LowerFault → Option String
  | .printCollision _ => some "rename the function or configure a different print symbol"
  | .boundNotLiteral =>
    some "use an integer literal such as `range(3)`, or a `while` loop"
  | .localType _ => some "only `int` and `bool` locals can be lowered"
  | .assignTarget => none
  | .boundTooLarge _ => none
  | .argumentType _ _ => none
  | .conflictingCalls _ => none
  | .expression => none

end LowerFault

/-- A fault with its place. -/
structure LowerError where
  fault : LowerFault
  span : Span
deriving DecidableEq

/-- The diagnostic for a fault of a file's program. -/
def LowerError.toDiagnostic (source : Source) (e : LowerError) : Diagnostic where
  layer := .emitter
  severity := .error
  code := e.fault.code
  message := e.fault.message
  anchors := [Anchor.ofSpan source e.span]
  scope := none
  detail := none
  suggestions := e.fault.help.toList

/-- The code of a failed verification. -/
def verifyCode : Nat :=
  6002

/-- The diagnostic for target code that does not verify. -/
def VerifyError.toDiagnostic (e : VerifyError) : Diagnostic where
  layer := .emitter
  severity := .fatal
  code := verifyCode
  message := "emitted IR failed verification"
  anchors := []
  scope := none
  detail := some e.message
  suggestions := []

end Code

end DeferLang
