import DeferLang.Program.Basic

/-!
# Canonical source text

`Program.format` writes a program with one statement a line, four blanks for
each level, and no more parentheses than its tree needs.  Cleanup statements
have a form of their own that the parser does not read.
-/

namespace DeferLang

/-- How tightly the parts of an expression bind. -/
inductive Precedence where
  | lowest
  | conjunction
  | comparison
  | additive
  | multiplicative
  | access
deriving DecidableEq

namespace Precedence

def rank : Precedence → Nat
  | .lowest => 0
  | .conjunction => 1
  | .comparison => 2
  | .additive => 3
  | .multiplicative => 4
  | .access => 5

end Precedence

/-- How tightly an operator binds. -/
def BinOp.precedence : BinOp → Precedence
  | .and => .conjunction
  | .eq | .ne | .lt | .gt | .le | .ge => .comparison
  | .add | .sub => .additive
  | .mul | .div | .rem => .multiplicative

/-- A text in parentheses if `wrap` holds. -/
def parenthesizedIf (wrap : Bool) (text : String) : String :=
  if wrap then "(" ++ text ++ ")" else text

/-- A backslash before every quote. -/
def escapeQuotes : List Char → List Char
  | [] => []
  | c :: cs => if c = '"' then '\\' :: c :: escapeQuotes cs else c :: escapeQuotes cs

/-- Whether an expression is a binary operation of a given precedence. -/
def Expr.isBinaryOf (p : Precedence) : Expr → Bool
  | .binary _ _ op _ _ _ => op.precedence = p
  | _ => false

/-- An expression as an operand of an operator that binds as tightly as `outer`. -/
def Expr.formatAt (outer : Precedence) : Expr → String
  | .bool _ _ value => if value then "true" else "false"
  | .int _ _ value => Nat.repr value
  | .str _ _ value => "\"" ++ String.ofList (escapeQuotes value.toList) ++ "\""
  | .var _ name => name.name
  | .range _ _ bound => "range(" ++ bound.formatAt .lowest ++ ")"
  | .field _ _ base name => base.formatAt .access ++ "." ++ name.name
  | .binary _ _ op _ left right =>
    let own := op.precedence
    let rightText :=
      if right.isBinaryOf own then "(" ++ right.formatAt .lowest ++ ")"
      else right.formatAt own
    parenthesizedIf (own.rank < outer.rank)
      (left.formatAt own ++ " " ++ op.symbol ++ " " ++ rightText)

/-- An expression on its own. -/
def Expr.format (e : Expr) : String :=
  e.formatAt .lowest

def TypeName.format : TypeName → String
  | .int => "int"
  | .bool => "bool"
  | .void => "void"
  | .auto => "auto"
  | .named name => name.name

def TypeModifier.format : TypeModifier → String
  | .pointer => "*"
  | .reference => "&"

def TypeRef.format (t : TypeRef) : String :=
  (if t.isConst then "const " else "") ++ t.base.format ++
    String.join (t.modifiers.map TypeModifier.format)

def Call.format (c : Call) : String :=
  c.callee.name ++ "(" ++ ", ".intercalate (c.args.map Expr.format) ++ ")"

def CleanupAction.format : CleanupAction → String
  | .destructor => ""
  | .deferred call => " => " ++ call.format
  | .releasedBy owner => " released by " ++ owner

/-- The blanks in front of a line at a level. -/
def indentation (level : Nat) : String :=
  String.join (List.replicate level "    ")

mutual

/-- A statement as a line, or lines, at a level. -/
def Stmt.format (level : Nat) : Stmt → String
  | .varDecl decl =>
    let init := match decl.init with
      | none => ""
      | some e => " = " ++ e.format
    indentation level ++ decl.type.format ++ " " ++ decl.name.name ++ init ++ ";\n"
  | .assign _ target value =>
    indentation level ++ target.format ++ " = " ++ value.format ++ ";\n"
  | .call _ call => indentation level ++ call.format ++ ";\n"
  | .block body => indentation level ++ Block.format level body ++ "\n"
  | .ifElse _ cond thenBody none =>
    indentation level ++ "if (" ++ cond.format ++ ") " ++ Block.format level thenBody ++ "\n"
  | .ifElse _ cond thenBody (some elseBody) =>
    indentation level ++ "if (" ++ cond.format ++ ") " ++ Block.format level thenBody ++
      " else " ++ Block.format level elseBody ++ "\n"
  | .whileLoop _ cond body =>
    indentation level ++ "while (" ++ cond.format ++ ") " ++ Block.format level body ++ "\n"
  | .forIn _ _ var iter body =>
    indentation level ++ "for (" ++ var.name ++ " in " ++ iter.format ++ ") " ++
      Block.format level body ++ "\n"
  | .ret _ none => indentation level ++ "return;\n"
  | .ret _ (some value) => indentation level ++ "return " ++ value.format ++ ";\n"
  | .defer _ call => indentation level ++ "defer " ++ call.format ++ ";\n"
  | .cleanup item =>
    indentation level ++ "cleanup " ++ item.var.name ++ item.action.format ++ ";\n"
termination_by structural s => s

/-- A block whose closing brace stands at a level. -/
def Block.format (level : Nat) : BlockOf Stmt → String
  | ⟨_, _, stmts⟩ => "\x7b\n" ++ formatStmts (level + 1) stmts ++ indentation level ++ "\x7d"
termination_by structural b => b

/-- The statements of a block at a level. -/
def formatStmts (level : Nat) : List Stmt → String
  | [] => ""
  | s :: ss => s.format level ++ formatStmts level ss
termination_by structural ss => ss

end

def FieldDef.format (f : FieldDef) : String :=
  indentation 1 ++ f.type.format ++ " " ++ f.name.name ++ ";\n"

/-- The head of a special member of the class `name`. -/
def CtorKind.format (name : String) : CtorKind → String
  | .default => name ++ "()"
  | .copy => name ++ "(const " ++ name ++ "& other)"
  | .move => name ++ "(" ++ name ++ "&& other)"
  | .destructor => "~" ++ name ++ "()"

def CtorBody.format : CtorBody → String
  | .defaulted => " = default;\n"
  | .deleted => " = delete;\n"
  | .body block => " " ++ Block.format 1 block ++ "\n"

def CtorDecl.format (name : String) (c : CtorDecl) : String :=
  indentation 1 ++ (if c.isExplicit then "explicit " else "") ++ c.kind.format name ++
    c.body.format

def ClassDef.format (c : ClassDef) : String :=
  "class " ++ c.name.name ++ " \x7b\n" ++ String.join (c.fields.map FieldDef.format) ++
    String.join (c.ctors.map (CtorDecl.format c.name.name)) ++ "\x7d;\n"

def Function.format (f : Function) : String :=
  "fn " ++ f.name.name ++ "() " ++ Block.format 0 f.body ++ "\n"

/-- The classes, then the functions, with an empty line between any two. -/
def Program.format (p : Program) : String :=
  "\n".intercalate (p.classes.map ClassDef.format ++ p.functions.map Function.format)

end DeferLang
