import DeferLang.Text.Span

/-!
# Programs

The tree of a program: classes and functions, blocks of statements, and
expressions.  Nodes that later passes speak about carry a number, which is
unique in a program, and every node has a span.
-/

namespace DeferLang

/-- The number of a node of a program. -/
abbrev NodeId := Nat

/-- A name and where it stands. -/
structure Ident where
  name : String
  span : Span
deriving DecidableEq

/-- The binary operators. -/
inductive BinOp where
  | add
  | sub
  | mul
  | div
  | rem
  | eq
  | ne
  | lt
  | gt
  | le
  | ge
  | and
deriving DecidableEq

namespace BinOp

/-- The spelling of an operator. -/
def symbol : BinOp → String
  | .add => "+"
  | .sub => "-"
  | .mul => "*"
  | .div => "/"
  | .rem => "%"
  | .eq => "=="
  | .ne => "!="
  | .lt => "<"
  | .gt => ">"
  | .le => "<="
  | .ge => ">="
  | .and => "&&"

/-- The operators from integers to an integer. -/
def isArithmetic : BinOp → Bool
  | .add | .sub | .mul | .div | .rem => true
  | _ => false

/-- The operators that compare two values. -/
def isComparison : BinOp → Bool
  | .eq | .ne | .lt | .gt | .le | .ge => true
  | _ => false

end BinOp

/-- Expressions. -/
inductive Expr where
  | bool (id : NodeId) (span : Span) (value : Bool)
  | int (id : NodeId) (span : Span) (value : Nat)
  | str (id : NodeId) (span : Span) (value : String)
  | var (id : NodeId) (name : Ident)
  | binary (id : NodeId) (span : Span) (op : BinOp) (opSpan : Span) (left right : Expr)
  | field (id : NodeId) (span : Span) (base : Expr) (name : Ident)
  | range (id : NodeId) (span : Span) (bound : Expr)
deriving DecidableEq

namespace Expr

def id : Expr → NodeId
  | .bool id _ _ => id
  | .int id _ _ => id
  | .str id _ _ => id
  | .var id _ => id
  | .binary id _ _ _ _ _ => id
  | .field id _ _ _ => id
  | .range id _ _ => id

def span : Expr → Span
  | .bool _ span _ => span
  | .int _ span _ => span
  | .str _ span _ => span
  | .var _ name => name.span
  | .binary _ span _ _ _ _ => span
  | .field _ span _ _ => span
  | .range _ span _ => span

/-- The name of a plain variable. -/
def asVar? : Expr → Option Ident
  | .var _ name => some name
  | _ => none

/-- Whether an expression names a place: a variable or a field of a place. -/
def isLvalue : Expr → Bool
  | .var _ _ => true
  | .field _ _ base _ => base.isLvalue
  | _ => false

end Expr

/-- What a written type starts with. -/
inductive TypeName where
  | int
  | bool
  | void
  | auto
  | named (name : Ident)
deriving DecidableEq

/-- What can follow the name in a written type. -/
inductive TypeModifier where
  | pointer
  | reference
deriving DecidableEq

/-- A type as it is written. -/
structure TypeRef where
  span : Span
  isConst : Bool
  base : TypeName
  modifiers : List TypeModifier
deriving DecidableEq

/-- The declaration of a local variable. -/
structure VarDecl where
  id : NodeId
  span : Span
  type : TypeRef
  name : Ident
  init : Option Expr
deriving DecidableEq

/-- A call of a function by name. -/
structure Call where
  id : NodeId
  span : Span
  callee : Ident
  args : List Expr
deriving DecidableEq

/-- How a variable is cleaned up. -/
inductive CleanupAction where
  /-- By the destructor of its type. -/
  | destructor
  /-- By a deferred call in place of the destructor. -/
  | deferred (call : Call)
  /-- By the deferred call that is registered on another variable. -/
  | releasedBy (owner : String)
deriving DecidableEq

/-- The cleanup of one variable at an exit.  `decl` is the node that declares it. -/
structure Cleanup where
  span : Span
  var : Ident
  decl : NodeId
  action : CleanupAction
deriving DecidableEq

/-- A block of statements of type `stmt`. -/
structure BlockOf (stmt : Type) where
  id : NodeId
  span : Span
  stmts : List stmt
deriving BEq

/-- Statements.  The parser makes no `cleanup`; cleanup scheduling inserts them. -/
inductive Stmt where
  | varDecl (decl : VarDecl)
  | assign (span : Span) (target value : Expr)
  | call (span : Span) (call : Call)
  | block (body : BlockOf Stmt)
  | ifElse (span : Span) (cond : Expr) (thenBody : BlockOf Stmt)
      (elseBody : Option (BlockOf Stmt))
  | whileLoop (span : Span) (cond : Expr) (body : BlockOf Stmt)
  /-- The number of the loop is also that of the declaration of its variable. -/
  | forIn (id : NodeId) (span : Span) (var : Ident) (iter : Expr) (body : BlockOf Stmt)
  | ret (span : Span) (value : Option Expr)
  | defer (span : Span) (call : Call)
  | cleanup (item : Cleanup)
deriving BEq

/-- A block of statements. -/
abbrev Block := BlockOf Stmt

namespace Stmt

def span : Stmt → Span
  | .varDecl decl => decl.span
  | .assign span _ _ => span
  | .call span _ => span
  | .block body => body.span
  | .ifElse span _ _ _ => span
  | .whileLoop span _ _ => span
  | .forIn _ span _ _ _ => span
  | .ret span _ => span
  | .defer span _ => span
  | .cleanup item => item.span

def isReturn : Stmt → Bool
  | .ret _ _ => true
  | _ => false

def isCleanup : Stmt → Bool
  | .cleanup _ => true
  | _ => false

end Stmt

/-- Whether the last statement returns. -/
def endsWithReturn (stmts : List Stmt) : Bool :=
  match stmts.getLast? with
  | some s => s.isReturn
  | none => false

/-- The special members of a class. -/
inductive CtorKind where
  | default
  | copy
  | move
  | destructor
deriving DecidableEq

namespace CtorKind

/-- The name of a special member in messages. -/
def describe : CtorKind → String
  | .default => "default constructor"
  | .copy => "copy constructor"
  | .move => "move constructor"
  | .destructor => "destructor"

end CtorKind

/-- How a special member is defined. -/
inductive CtorBody where
  | defaulted
  | deleted
  | body (block : Block)
deriving BEq

/-- A special member of a class. -/
structure CtorDecl where
  span : Span
  kind : CtorKind
  isExplicit : Bool
  body : CtorBody
deriving BEq

/-- A field of a class. -/
structure FieldDef where
  span : Span
  type : TypeRef
  name : Ident
deriving DecidableEq

structure ClassDef where
  id : NodeId
  span : Span
  name : Ident
  fields : List FieldDef
  ctors : List CtorDecl
deriving BEq

structure Function where
  id : NodeId
  span : Span
  name : Ident
  body : Block
deriving BEq

/-- A whole program. -/
structure Program where
  span : Span
  functions : List Function
  classes : List ClassDef
deriving BEq

end DeferLang
