import DeferLang.Program.Format
import DeferLang.Program.Parse

/-!
# The grammar

What token sequences the language has, and which trees they stand for.  A
nonterminal is a `Language`: a relation between the kinds of the tokens and a
tree.  The numbers and spans of a tree are left open.

Expressions and blocks nest, and every nesting spends a level: `exprAt n` and
`blockAt n` hold what opens at most `n` blocks and expressions at once.  The
other nonterminals are stated over the languages of what they contain.
-/

namespace DeferLang

/-- Token sequences, each with what it stands for. -/
abbrev Language (α : Type) :=
  List TokenKind → α → Prop

/-- The mark of an operator. -/
def BinOp.mark : BinOp → Mark
  | .add => .plus
  | .sub => .minus
  | .mul => .star
  | .div => .slash
  | .rem => .percent
  | .eq => .eqEq
  | .ne => .notEq
  | .lt => .less
  | .gt => .greater
  | .le => .lessEq
  | .ge => .greaterEq
  | .and => .andAnd

/-- The token of a modifier. -/
def TypeModifier.kind : TypeModifier → TokenKind
  | .pointer => .mark .star
  | .reference => .mark .amp

namespace Grammar

variable {α : Type}

/-- Any number of `item`s. -/
inductive Many (item : Language α) : Language (List α) where
  | nil : Many item [] []
  | cons {ks ks' : List TokenKind} {a : α} {as : List α} (hfirst : item ks a)
      (hrest : Many item ks' as) : Many item (ks ++ ks') (a :: as)

theorem Many.append {item : Language α} {ks ks' : List TokenKind} {as bs : List α}
    (h : Many item ks as) (h' : Many item ks' bs) : Many item (ks ++ ks') (as ++ bs) := by
  induction h with
  | nil => exact h'
  | cons hfirst _ ih => exact List.append_assoc .. ▸ .cons hfirst ih

section Expressions

variable (expr : Language Expr)

/-- Primary expressions: `NUMBER | BOOL | STRING | IDENT | 'range' '(' expr ')' | '(' expr ')'`. -/
inductive Primary : Language Expr where
  | int (id : NodeId) (span : Span) (value : Nat) : Primary [.int value] (.int id span value)
  | yes (id : NodeId) (span : Span) : Primary [.keyword .trueKw] (.bool id span true)
  | no (id : NodeId) (span : Span) : Primary [.keyword .falseKw] (.bool id span false)
  | str (id : NodeId) (span : Span) (value : String) : Primary [.str value] (.str id span value)
  | var (id : NodeId) (name : Ident) : Primary [.ident name.name] (.var id name)
  | range (id : NodeId) (span : Span) {ks : List TokenKind} {bound : Expr} (h : expr ks bound) :
      Primary (.keyword .rangeKw :: .mark .lparen :: (ks ++ [.mark .rparen]))
        (.range id span bound)
  | paren {ks : List TokenKind} {e : Expr} (h : expr ks e) :
      Primary (.mark .lparen :: (ks ++ [.mark .rparen])) e

/-- Field accesses: `primary ('.' IDENT)*`. -/
inductive Access : Language Expr where
  | primary {ks : List TokenKind} {e : Expr} (h : Primary expr ks e) : Access ks e
  | field (id : NodeId) (span : Span) (name : Ident) {ks : List TokenKind} {base : Expr}
      (h : Access ks base) :
      Access (ks ++ [.mark .dot, .ident name.name]) (.field id span base name)

/-- Operations of one level: `operand (op operand)*`.  They associate to the left. -/
inductive Chain (level : Precedence) (operand : Language Expr) : Language Expr where
  | operand {ks : List TokenKind} {e : Expr} (h : operand ks e) : Chain level operand ks e
  | binary (id : NodeId) (span opSpan : Span) {op : BinOp} {ks ks' : List TokenKind}
      {left right : Expr} (hop : op.precedence = level) (hleft : Chain level operand ks left)
      (hright : operand ks' right) :
      Chain level operand (ks ++ .mark op.mark :: ks') (.binary id span op opSpan left right)

/-- Terms: `access (('*'|'/'|'%') access)*`. -/
def Term : Language Expr :=
  Chain .multiplicative (Access expr)

/-- Sums: `term (('+'|'-') term)*`. -/
def Sum : Language Expr :=
  Chain .additive (Term expr)

/-- Comparisons: `sum (('<'|'>'|'<='|'>='|'=='|'!=') sum)*`. -/
def Comparison : Language Expr :=
  Chain .comparison (Sum expr)

/-- Conjunctions: `comparison ('&&' comparison)*`. -/
def Conjunction : Language Expr :=
  Chain .conjunction (Comparison expr)

end Expressions

/-- Expressions, with `levels` blocks and expressions left to open. -/
def exprAt : Nat → Language Expr
  | 0 => fun _ _ => False
  | levels + 1 => Conjunction (exprAt levels)

section Types

/-- Names of types: `'int' | 'bool' | 'void' | 'auto' | IDENT`. -/
inductive BaseType : Language TypeName where
  | int : BaseType [.keyword .intKw] .int
  | bool : BaseType [.keyword .boolKw] .bool
  | void : BaseType [.keyword .voidKw] .void
  | auto : BaseType [.keyword .autoKw] .auto
  | named (name : Ident) : BaseType [.ident name.name] (.named name)

/-- Types: `'const'? base ('*'|'&')*`. -/
inductive WrittenType : Language TypeRef where
  | plain (span : Span) (modifiers : List TypeModifier) {ks : List TokenKind} {base : TypeName}
      (h : BaseType ks base) :
      WrittenType (ks ++ modifiers.map TypeModifier.kind) ⟨span, false, base, modifiers⟩
  | const (span : Span) (modifiers : List TypeModifier) {ks : List TokenKind} {base : TypeName}
      (h : BaseType ks base) :
      WrittenType (.keyword .constKw :: (ks ++ modifiers.map TypeModifier.kind))
        ⟨span, true, base, modifiers⟩

end Types

section Statements

variable (expr : Language Expr) (block : Language Block)

/-- Further arguments: `(',' expr)*`. -/
inductive MoreArgs : Language (List Expr) where
  | nil : MoreArgs [] []
  | cons {ks ks' : List TokenKind} {e : Expr} {es : List Expr} (hfirst : expr ks e)
      (hrest : MoreArgs ks' es) : MoreArgs (.mark .comma :: (ks ++ ks')) (e :: es)

/-- Arguments: `(expr (',' expr)*)?`. -/
inductive Args : Language (List Expr) where
  | none : Args [] []
  | some {ks ks' : List TokenKind} {e : Expr} {es : List Expr} (hfirst : expr ks e)
      (hrest : MoreArgs expr ks' es) : Args (ks ++ ks') (e :: es)

/-- Calls: `IDENT '(' args ')'`. -/
inductive CallOf : Language Call where
  | call (id : NodeId) (span : Span) (callee : Ident) {ks : List TokenKind} {args : List Expr}
      (h : Args expr ks args) :
      CallOf (.ident callee.name :: .mark .lparen :: (ks ++ [.mark .rparen]))
        ⟨id, span, callee, args⟩

/-- Declarations: `type IDENT ('=' expr)? ';'`. -/
inductive Declaration : Language VarDecl where
  | plain (id : NodeId) (span : Span) (name : Ident) {ks : List TokenKind} {type : TypeRef}
      (htype : WrittenType ks type) :
      Declaration (ks ++ [.ident name.name, .mark .semi]) ⟨id, span, type, name, none⟩
  | init (id : NodeId) (span : Span) (name : Ident) {ks ks' : List TokenKind} {type : TypeRef}
      {e : Expr} (htype : WrittenType ks type) (hinit : expr ks' e) :
      Declaration (ks ++ .ident name.name :: .mark .assign :: (ks' ++ [.mark .semi]))
        ⟨id, span, type, name, some e⟩

/-- Assignments: `expr '=' expr ';'`. -/
inductive Assignment : Language Stmt where
  | assign (span : Span) {ks ks' : List TokenKind} {target value : Expr} (htarget : expr ks target)
      (hvalue : expr ks' value) :
      Assignment (ks ++ .mark .assign :: (ks' ++ [.mark .semi])) (.assign span target value)

/-- Tokens that begin `IDENT ('*'|'&')* IDENT`. -/
def BeginsDeclaration (ks : List TokenKind) : Prop :=
  ∃ (name name' : String) (modifiers : List TypeModifier) (rest : List TokenKind),
    ks = .ident name :: (modifiers.map TypeModifier.kind ++ .ident name' :: rest)

/-- Tokens that begin `IDENT '('`. -/
def BeginsCall (ks : List TokenKind) : Prop :=
  ∃ (name : String) (rest : List TokenKind), ks = .ident name :: .mark .lparen :: rest

/-- Tokens that begin with the identifier `break` or `continue`. -/
def BeginsJump (ks : List TokenKind) : Prop :=
  ∃ rest : List TokenKind, ks = .ident "break" :: rest ∨ ks = .ident "continue" :: rest

/- What begins a statement begins it whatever follows. -/
section Beginnings

variable {ks ks' : List TokenKind}

theorem BeginsDeclaration.mono (h : BeginsDeclaration ks) (hle : ks <+: ks') :
    BeginsDeclaration ks' := by
  obtain ⟨more, rfl⟩ := hle
  obtain ⟨name, name', modifiers, rest, rfl⟩ := h
  exact ⟨name, name', modifiers, rest ++ more, by simp⟩

theorem BeginsCall.mono (h : BeginsCall ks) (hle : ks <+: ks') : BeginsCall ks' := by
  obtain ⟨more, rfl⟩ := hle
  obtain ⟨name, rest, rfl⟩ := h
  exact ⟨name, rest ++ more, rfl⟩

theorem BeginsJump.mono (h : BeginsJump ks) (hle : ks <+: ks') : BeginsJump ks' := by
  obtain ⟨more, rfl⟩ := hle
  obtain ⟨rest, rfl | rfl⟩ := h
  · exact ⟨rest ++ more, .inl rfl⟩
  · exact ⟨rest ++ more, .inr rfl⟩

end Beginnings

/-- The forms of statements.  What begins like a declaration or a call is no assignment. -/
inductive StatementForm : Language Stmt where
  | decl {ks : List TokenKind} {d : VarDecl} (h : Declaration expr ks d) :
      StatementForm ks (.varDecl d)
  | assign {ks : List TokenKind} {s : Stmt} (h : Assignment expr ks s)
      (hdecl : ¬BeginsDeclaration ks) (hcall : ¬BeginsCall ks) : StatementForm ks s
  | call (span : Span) {ks : List TokenKind} {c : Call} (h : CallOf expr ks c) :
      StatementForm (ks ++ [.mark .semi]) (.call span c)
  | block {ks : List TokenKind} {b : Block} (h : block ks b) : StatementForm ks (.block b)
  | ifThen (span : Span) {ks ks' : List TokenKind} {cond : Expr} {body : Block}
      (hcond : expr ks cond) (hbody : block ks' body) :
      StatementForm (.keyword .ifKw :: .mark .lparen :: (ks ++ .mark .rparen :: ks'))
        (.ifElse span cond body none)
  | ifElse (span : Span) {ks ks' ks'' : List TokenKind} {cond : Expr} {thenBody elseBody : Block}
      (hcond : expr ks cond) (hthen : block ks' thenBody) (helse : block ks'' elseBody) :
      StatementForm (.keyword .ifKw :: .mark .lparen ::
          (ks ++ .mark .rparen :: (ks' ++ .keyword .elseKw :: ks'')))
        (.ifElse span cond thenBody (some elseBody))
  | whileLoop (span : Span) {ks ks' : List TokenKind} {cond : Expr} {body : Block}
      (hcond : expr ks cond) (hbody : block ks' body) :
      StatementForm (.keyword .whileKw :: .mark .lparen :: (ks ++ .mark .rparen :: ks'))
        (.whileLoop span cond body)
  | forIn (id : NodeId) (span : Span) (var : Ident) {ks ks' : List TokenKind} {iter : Expr}
      {body : Block} (hiter : expr ks iter) (hbody : block ks' body) :
      StatementForm (.keyword .forKw :: .mark .lparen :: .ident var.name :: .keyword .inKw ::
          (ks ++ .mark .rparen :: ks'))
        (.forIn id span var iter body)
  | ret (span : Span) : StatementForm [.keyword .returnKw, .mark .semi] (.ret span none)
  | retValue (span : Span) {ks : List TokenKind} {value : Expr} (h : expr ks value) :
      StatementForm (.keyword .returnKw :: (ks ++ [.mark .semi])) (.ret span (some value))
  | defer (span : Span) {ks : List TokenKind} {c : Call} (h : CallOf expr ks c) :
      StatementForm (.keyword .deferKw :: (ks ++ [.mark .semi])) (.defer span c)

/-- Statements, none of which begins with `break` or `continue`. -/
def Statement : Language Stmt := fun ks s =>
  StatementForm expr block ks s ∧ ¬BeginsJump ks

/-- Blocks: `'{' statement* '}'`. -/
inductive Braces (stmt : Language Stmt) : Language Block where
  | braces (id : NodeId) (span : Span) {ks : List TokenKind} {stmts : List Stmt}
      (h : Many stmt ks stmts) :
      Braces stmt (.mark .lbrace :: (ks ++ [.mark .rbrace])) ⟨id, span, stmts⟩

end Statements

/-- Blocks, with `levels` blocks and expressions left to open. -/
def blockAt : Nat → Language Block
  | 0 => fun _ _ => False
  | levels + 1 => Braces (Statement (exprAt levels) (blockAt levels))

section Items

/-- A name that may be missing. -/
def OptionalName (ks : List TokenKind) : Prop :=
  ks = [] ∨ ∃ name, ks = [.ident name]

/-- The parameters of a constructor of a class:
`ε | 'const' IDENT '&' IDENT? | IDENT '&&' IDENT?`. -/
inductive CtorParams (className : String) : Language CtorKind where
  | default : CtorParams className [] .default
  | copy {ks : List TokenKind} (h : OptionalName ks) :
      CtorParams className (.keyword .constKw :: .ident className :: .mark .amp :: ks) .copy
  | move {ks : List TokenKind} (h : OptionalName ks) :
      CtorParams className (.ident className :: .mark .andAnd :: ks) .move

/-- Definitions of special members: `'=' 'default' ';' | '=' 'delete' ';' | block`. -/
inductive CtorBodyOf : Language CtorBody where
  | defaulted : CtorBodyOf [.mark .assign, .keyword .defaultKw, .mark .semi] .defaulted
  | deleted : CtorBodyOf [.mark .assign, .ident "delete", .mark .semi] .deleted
  | body {ks : List TokenKind} {b : Block} (h : blockAt maxNesting ks b) : CtorBodyOf ks (.body b)

/-- Members of a class:
`type IDENT ';' | 'explicit'? IDENT '(' params ')' body | '~' IDENT '(' ')' body`, where
constructors and destructors have the name of the class. -/
inductive MemberOf (className : String) : Language Parser.Member where
  | field (span : Span) (name : Ident) {ks : List TokenKind} {type : TypeRef}
      (h : WrittenType ks type) :
      MemberOf className (ks ++ [.ident name.name, .mark .semi]) (.field ⟨span, type, name⟩)
  | ctor (span : Span) {ks ks' : List TokenKind} {kind : CtorKind} {body : CtorBody}
      (hparams : CtorParams className ks kind) (hbody : CtorBodyOf ks' body) :
      MemberOf className (.ident className :: .mark .lparen :: (ks ++ .mark .rparen :: ks'))
        (.ctor ⟨span, kind, false, body⟩)
  | explicitCtor (span : Span) {ks ks' : List TokenKind} {kind : CtorKind} {body : CtorBody}
      (hparams : CtorParams className ks kind) (hbody : CtorBodyOf ks' body) :
      MemberOf className (.keyword .explicitKw :: .ident className :: .mark .lparen ::
          (ks ++ .mark .rparen :: ks'))
        (.ctor ⟨span, kind, true, body⟩)
  | destructor (span : Span) {ks : List TokenKind} {body : CtorBody} (hbody : CtorBodyOf ks body) :
      MemberOf className (.mark .tilde :: .ident className :: .mark .lparen :: .mark .rparen :: ks)
        (.ctor ⟨span, .destructor, false, body⟩)

/-- A semicolon that may be missing. -/
def OptionalSemi (ks : List TokenKind) : Prop :=
  ks = [] ∨ ks = [.mark .semi]

/-- Items: `'fn' IDENT '(' ')' block | 'class' IDENT '{' member* '}' ';'?`. -/
inductive ItemOf : Language Parser.Item where
  | function (id : NodeId) (span : Span) (name : Ident) {ks : List TokenKind} {body : Block}
      (h : blockAt maxNesting ks body) :
      ItemOf (.keyword .fnKw :: .ident name.name :: .mark .lparen :: .mark .rparen :: ks)
        (.ofFunction ⟨id, span, name, body⟩)
  | classDef (id : NodeId) (span : Span) (name : Ident) {ks ks' : List TokenKind}
      {members : List Parser.Member} (h : Many (MemberOf name.name) ks members)
      (hsemi : OptionalSemi ks') :
      ItemOf (.keyword .classKw :: .ident name.name :: .mark .lbrace ::
          (ks ++ .mark .rbrace :: ks'))
        (.ofClass ⟨id, span, name, members.filterMap Parser.Member.field?,
          members.filterMap Parser.Member.ctor?⟩)

/-- Programs: any number of items.  A program keeps its functions and its classes apart. -/
def ProgramOf : Language Program := fun ks p =>
  ∃ items, Many ItemOf ks items ∧ p.functions = items.filterMap Parser.Item.function? ∧
    p.classes = items.filterMap Parser.Item.classDef?

end Items

end Grammar

end DeferLang
