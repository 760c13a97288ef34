import DeferLang.Symbol.Basic

/-!
# What checking learns about a program

The program itself stays as it is; what is learned about its nodes stands in
tables that are keyed by node number.
-/

namespace DeferLang

/-- How a special member of a class is provided. -/
inductive CtorState where
  | defaulted
  | deleted
  | userDefined
deriving DecidableEq

def CtorBody.state : CtorBody → CtorState
  | .defaulted => .defaulted
  | .deleted => .deleted
  | .body _ => .userDefined

/-- A class with the types of its fields and the state of its special members. -/
structure ClassInfo where
  name : String
  decl : NodeId
  span : Span
  fields : List (String × Ty) := []
  ctors : List (CtorKind × CtorState) := []
deriving DecidableEq

namespace ClassInfo

def type (c : ClassInfo) : Ty :=
  .object c.name

def fieldType? (c : ClassInfo) (name : String) : Option Ty :=
  c.fields.lookup name

/-- How a special member was declared, if it was; the last declaration counts. -/
def ctorState? (c : ClassInfo) (kind : CtorKind) : Option CtorState :=
  c.ctors.lookup kind

/-- Special members are there unless they are deleted. -/
def has (c : ClassInfo) (kind : CtorKind) : Bool :=
  c.ctorState? kind ≠ some .deleted

end ClassInfo

/-- A function.  Functions take nothing and return nothing. -/
structure FunctionInfo where
  name : String
  decl : NodeId
  span : Span
deriving DecidableEq

def FunctionInfo.type (_ : FunctionInfo) : Ty :=
  .function [] .void

/-- The tables about a program.  In tables keyed by node number the latest entry counts. -/
structure Context where
  symbols : SymbolTable := {}
  exprTypes : List (NodeId × Ty) := []
  /-- The symbol that a variable expression names. -/
  resolutions : List (NodeId × SymbolId) := []
  /-- The symbol that a declaration or a loop declares. -/
  declSymbols : List (NodeId × SymbolId) := []
  /-- The symbols declared directly in a block, in the order of declaration. -/
  scopeLocals : List (NodeId × List SymbolId) := []
  classes : List ClassInfo := []
  functions : List FunctionInfo := []
deriving DecidableEq

namespace Context

def exprType (c : Context) (expr : NodeId) : Ty :=
  (c.exprTypes.lookup expr).getD .unknown

def resolve? (c : Context) (expr : NodeId) : Option SymbolId :=
  c.resolutions.lookup expr

def declSymbol? (c : Context) (decl : NodeId) : Option SymbolId :=
  c.declSymbols.lookup decl

def localsOf (c : Context) (block : NodeId) : List SymbolId :=
  (c.scopeLocals.lookup block).getD []

def class? (c : Context) (name : String) : Option ClassInfo :=
  c.classes.find? fun i => i.name = name

def function? (c : Context) (name : String) : Option FunctionInfo :=
  c.functions.find? fun i => i.name = name

mutual

/-- Whether the tables know the blocks and declarations in a statement. -/
def coversStmt (c : Context) : Stmt → Bool
  | .varDecl decl => (c.declSymbol? decl.id).isSome
  | .block body => coversBlock c body
  | .ifElse _ _ thenBody none => coversBlock c thenBody
  | .ifElse _ _ thenBody (some elseBody) => coversBlock c thenBody && coversBlock c elseBody
  | .whileLoop _ _ body => coversBlock c body
  | .forIn id _ _ _ body => (c.declSymbol? id).isSome && coversBlock c body
  | .assign _ _ _ => true
  | .call _ _ => true
  | .ret _ _ => true
  | .defer _ _ => true
  | .cleanup _ => true
termination_by structural s => s

/-- Whether the tables know a block and what is in it. -/
def coversBlock (c : Context) : BlockOf Stmt → Bool
  | ⟨id, _, stmts⟩ => (c.scopeLocals.lookup id).isSome && coversStmts c stmts
termination_by structural b => b

/-- Whether the tables know the blocks and declarations in statements. -/
def coversStmts (c : Context) : List Stmt → Bool
  | [] => true
  | s :: ss => coversStmt c s && coversStmts c ss
termination_by structural ss => ss

end

end Context

/-- The body of a special member that has one. -/
def CtorDecl.block? (c : CtorDecl) : Option Block :=
  match c.body with
  | .body block => some block
  | _ => none

/-- The bodies of the special members of a program, in order. -/
def Program.ctorBlocks (p : Program) : List Block :=
  p.classes.flatMap fun c => c.ctors.filterMap CtorDecl.block?

/-- Whether the tables were made for a program: they know its blocks and declarations. -/
def Context.covers (c : Context) (p : Program) : Bool :=
  p.functions.all (fun f => c.coversBlock f.body) && p.ctorBlocks.all c.coversBlock

end DeferLang
