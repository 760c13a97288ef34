import DeferLang.Code.Basic

/-!
# The text of target code

A module is printed as textual intermediate code: a header, the constants, the
routines from outside, then the functions, each part sorted as in the module.
-/

namespace DeferLang

namespace Code

def valueText (id : ValueId) : String :=
  "%v" ++ Nat.repr id

def blockText (id : BlockId) : String :=
  "bb" ++ Nat.repr id

def boolText (b : Bool) : String :=
  if b then "true" else "false"

/-- A number in decimal, with a minus sign if it is negative. -/
def int32Text (n : Int32) : String :=
  if n.toInt < 0 then "-" ++ Nat.repr n.toInt.natAbs else Nat.repr n.toInt.natAbs

def Operand.text : Operand → String
  | .value id => valueText id
  | .const32 n => int32Text n
  | .const1 b => boolText b
  | .address name => "@" ++ name

/-- The types of parameters, with dots for further arguments. -/
def Signature.paramsText (s : Signature) : String :=
  ", ".intercalate (s.params.map ValueType.text ++ if s.isVariadic then ["..."] else [])

/-- A type as the operand of a memory instruction. -/
def alignText (type : ValueType) : String :=
  ", align " ++ Nat.repr type.align

/-- What stands in front of a callee: the result type, or the full type of a routine that
takes further arguments. -/
def Module.calleeType (m : Module) (callee : String) (result : ValueType) : String :=
  match m.externs.lookup callee with
  | some s =>
    if s.isVariadic then result.text ++ " (" ++ s.paramsText ++ ")" else result.text
  | none => result.text

def Module.operationText (m : Module) : Operation → String
  | .slot type => "alloca " ++ type.text ++ alignText type
  | .load type slot => "load " ++ type.text ++ ", ptr " ++ valueText slot ++ alignText type
  | .store type value slot =>
    "store " ++ type.text ++ " " ++ value.text ++ ", ptr " ++ valueText slot ++ alignText type
  | .binary op type left right =>
    op.text ++ " " ++ type.text ++ " " ++ left.text ++ ", " ++ right.text
  | .widen value => "zext i1 " ++ value.text ++ " to i32"
  | .call callee result args =>
    "call " ++ m.calleeType callee result ++ " @" ++ callee ++ "(" ++
      ", ".intercalate (args.map fun (type, value) => type.text ++ " " ++ value.text) ++ ")"

def Module.instrText (m : Module) (i : Instr) : String :=
  let dest := match i.dest with
    | some id => valueText id ++ " = "
    | none => ""
  "  " ++ dest ++ m.operationText i.operation ++ "\n"

def Terminator.text : Terminator → String
  | .ret none => "  ret void\n"
  | .ret (some (type, value)) => "  ret " ++ type.text ++ " " ++ value.text ++ "\n"
  | .jump target => "  br label %" ++ blockText target ++ "\n"
  | .branch cond thenTarget elseTarget =>
    "  br i1 " ++ cond.text ++ ", label %" ++ blockText thenTarget ++ ", label %" ++
      blockText elseTarget ++ "\n"

def Module.basicBlockText (m : Module) (b : BasicBlock) : String :=
  blockText b.id ++ ":\n" ++ String.join (b.instrs.map m.instrText) ++ b.term.text

/-- The blocks of a function in the order of printing: the entry block first. -/
def Function.printOrder (f : Function) : List BasicBlock :=
  f.blocks.filter (·.id = f.entry) ++ f.blocks.filter (·.id ≠ f.entry)

def Module.functionText (m : Module) (f : Function) : String :=
  "define " ++ f.result.text ++ " @" ++ f.name ++ "() \x7b\n" ++
    String.join (f.printOrder.map m.basicBlockText) ++ "\x7d\n"

/-- One hexadecimal digit, in upper case. -/
def hexDigit (n : Nat) : Char :=
  if n < 10 then Char.ofNat (48 + n) else Char.ofNat (55 + n)

/-- A byte inside a quoted constant: printable ASCII stands for itself, except the quote and
the backslash; any other byte is a backslash and two hexadecimal digits. -/
def byteText (b : UInt8) : List Char :=
  let n := b.toNat
  if 32 ≤ n ∧ n ≤ 126 ∧ n ≠ 34 ∧ n ≠ 92 then [Char.ofNat n]
  else ['\\', hexDigit (n / 16), hexDigit (n % 16)]

def Constant.body (c : Constant) : List Char :=
  c.bytes.flatMap byteText

def Constant.text (c : Constant) : String :=
  "@" ++ c.name ++ " = private unnamed_addr constant [" ++ Nat.repr c.bytes.length ++
    " x i8] c\"" ++ String.ofList c.body ++ "\", align 1\n"

def externText (name : String) (s : Signature) : String :=
  "declare " ++ s.result.text ++ " @" ++ name ++ "(" ++ s.paramsText ++ ")\n"

/-- The lines of a part, with a blank line behind them if there are any. -/
def partText (lines : List String) : String :=
  if lines.isEmpty then "" else String.join lines ++ "\n"

/-- The text of a module. -/
def Module.text (m : Module) : String :=
  "; ModuleID = '" ++ m.name ++ "'\n" ++
    "source_filename = \"" ++ m.name ++ "\"\n" ++
    "target triple = \"" ++ m.targetTriple ++ "\"\n\n" ++
    partText (m.constants.map Constant.text) ++
    partText (m.externs.map fun (name, s) => externText name s) ++
    "\n".intercalate (m.functions.map fun (_, f) => m.functionText f)

end Code

end DeferLang
