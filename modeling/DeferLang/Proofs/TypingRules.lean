import DeferLang.Typing.Check

/-!
# Typing rules

What it means that the tables about a program type it, apart from how checking
makes the tables.  The rules speak about a context and the symbols in scope:

* `Context.HasType`: an expression has a type,
* `Context.TypesCall`: a call has arguments that its callee takes,
* `Context.TypesStmt`: a statement is typed; behind it further symbols are in scope.

A symbol stays in scope behind the end of a plain block, since a deferred call may
still read it there.  What is declared in a branch or a loop goes out of scope with it.

`unknown` passes wherever a type is demanded, so the rules do not say that nothing
is unknown.
-/

namespace DeferLang

/-- Whether an operator takes operands of two types.  What is unknown passes. -/
def BinOp.Admits (op : BinOp) (left right : Ty) : Prop :=
  match op.operandType? with
  | some want => (left = want ∨ left = .unknown) ∧ (right = want ∨ right = .unknown)
  | none => left = .unknown ∨ right = .unknown ∨ (left = right ∧ left.isComparable = true)

/-- Whether a value of one type can be stored where another is expected. -/
def Ty.Takes (expected found : Ty) : Prop :=
  expected = .unknown ∨ found = .unknown ∨ expected.deref = found.deref

namespace Context

/-- The type of a symbol. -/
def symbolType? (c : Context) (symbol : SymbolId) : Option Ty :=
  (c.symbols.get? symbol).map Symbol.type

/-- A field of a value of one type has another: that of the member of its class, while nothing
is known about the members of what is unknown. -/
def FieldType (c : Context) (base : Ty) (field : String) (type : Ty) : Prop :=
  (base = .unknown ∧ type = .unknown) ∨
    ∃ className, base.className? = some className ∧
      (c.class? className).bind (·.fieldType? field) = some type

/-- An expression has a type, which the tables record. -/
inductive HasType (c : Context) (scope : List SymbolId) : Expr → Ty → Prop
  | bool {id : NodeId} {span : Span} {value : Bool} :
      (id, .bool) ∈ c.exprTypes → HasType c scope (.bool id span value) .bool
  | int {id : NodeId} {span : Span} {value : Nat} :
      value ≤ maxInt → (id, .int) ∈ c.exprTypes → HasType c scope (.int id span value) .int
  | str {id : NodeId} {span : Span} {value : String} :
      (id, .str) ∈ c.exprTypes → HasType c scope (.str id span value) .str
  | var {id : NodeId} {name : Ident} {symbol : SymbolId} {type : Ty} :
      (id, symbol) ∈ c.resolutions → symbol ∈ scope → c.symbolType? symbol = some type →
      (id, type) ∈ c.exprTypes → HasType c scope (.var id name) type
  | binary {id : NodeId} {span opSpan : Span} {op : BinOp} {left right : Expr}
      {leftType rightType : Ty} :
      HasType c scope left leftType → HasType c scope right rightType →
      op.Admits leftType.deref rightType.deref → (id, op.resultType) ∈ c.exprTypes →
      HasType c scope (.binary id span op opSpan left right) op.resultType
  | field {id : NodeId} {span : Span} {base : Expr} {name : Ident} {baseType type : Ty} :
      HasType c scope base baseType → c.FieldType baseType name.name type →
      (id, type) ∈ c.exprTypes →
      HasType c scope (.field id span base name) type
  | range {id : NodeId} {span : Span} {bound : Expr} {boundType : Ty} :
      HasType c scope bound boundType → (boundType.deref = .int ∨ boundType.deref = .unknown) →
      (id, .sequence .int) ∈ c.exprTypes →
      HasType c scope (.range id span bound) (.sequence .int)

/-- A call has arguments that its callee takes. -/
inductive TypesCall (c : Context) (scope : List SymbolId) (call : Call) : Prop
  | print {arg : Expr} {type : Ty} :
      call.callee.name = printName → call.args = [arg] → c.HasType scope arg type →
      type.deref.isPrintable = true → TypesCall c scope call
  | function :
      call.callee.name ≠ printName → (c.function? call.callee.name).isSome = true →
      call.args = [] → TypesCall c scope call
  | routine :
      call.callee.name ≠ printName → c.function? call.callee.name = none →
      (∀ arg ∈ call.args, ∃ type, c.HasType scope arg type) → TypesCall c scope call

/-- A condition is a truth value. -/
def TypesCondition (c : Context) (scope : List SymbolId) (cond : Expr) : Prop :=
  ∃ type, c.HasType scope cond type ∧ (type.deref = .bool ∨ type.deref = .unknown)

/-- A declaration gives its variable a type: that of what its initializer reads, or the written
one, for which an initializer must fit. -/
inductive Declares (c : Context) (scope : List SymbolId) (d : VarDecl) : Ty → Prop
  | inferred {init : Expr} {type : Ty} :
      d.init = some init → c.HasType scope init type → Declares c scope d type.deref
  | written {type : Ty} :
      type ≠ .unknown →
      (∀ init, d.init = some init →
        ∃ found, c.HasType scope init found ∧ type.deref.Takes found) →
      Declares c scope d type

mutual

/-- A statement is typed with the first symbols in scope; behind it the second are. -/
inductive TypesStmt (c : Context) : List SymbolId → Stmt → List SymbolId → Prop
  | varDecl {scope : List SymbolId} {d : VarDecl} {symbol : SymbolId} {type : Ty} :
      (d.id, symbol) ∈ c.declSymbols → c.symbolType? symbol = some type → symbol ∉ scope →
      c.Declares scope d type → TypesStmt c scope (.varDecl d) (symbol :: scope)
  | assign {scope : List SymbolId} {span : Span} {target value : Expr} {type found : Ty} :
      c.HasType scope target type → c.HasType scope value found → type.deref.Takes found →
      TypesStmt c scope (.assign span target value) scope
  | call {scope : List SymbolId} {span : Span} {call : Call} :
      c.TypesCall scope call → TypesStmt c scope (.call span call) scope
  | block {scope inner : List SymbolId} {body : BlockOf Stmt} :
      TypesBlock c scope body inner → TypesStmt c scope (.block body) inner
  | ifThen {scope inner : List SymbolId} {span : Span} {cond : Expr} {thenBody : BlockOf Stmt} :
      c.TypesCondition scope cond → TypesBlock c scope thenBody inner →
      TypesStmt c scope (.ifElse span cond thenBody none) scope
  | ifElse {scope inner inner' : List SymbolId} {span : Span} {cond : Expr}
      {thenBody elseBody : BlockOf Stmt} :
      c.TypesCondition scope cond → TypesBlock c scope thenBody inner →
      TypesBlock c scope elseBody inner' →
      TypesStmt c scope (.ifElse span cond thenBody (some elseBody)) scope
  | whileLoop {scope inner : List SymbolId} {span : Span} {cond : Expr} {body : BlockOf Stmt} :
      c.TypesCondition scope cond → TypesBlock c scope body inner →
      TypesStmt c scope (.whileLoop span cond body) scope
  | forIn {scope inner : List SymbolId} {id : NodeId} {span : Span} {var : Ident} {iter : Expr}
      {body : BlockOf Stmt} {symbol : SymbolId} {type : Ty} :
      c.HasType scope iter type → (type = .sequence .int ∨ type = .unknown) →
      (id, symbol) ∈ c.declSymbols → c.symbolType? symbol = some .int → symbol ∉ scope →
      TypesBlock c (symbol :: scope) body inner →
      TypesStmt c scope (.forIn id span var iter body) scope
  | ret {scope : List SymbolId} {span : Span} : TypesStmt c scope (.ret span none) scope
  | defer {scope : List SymbolId} {span : Span} {call : Call} :
      c.TypesCall scope call → TypesStmt c scope (.defer span call) scope
  | cleanup {scope : List SymbolId} {item : Cleanup} :
      (∀ call, item.action = .deferred call → c.TypesCall scope call) →
      TypesStmt c scope (.cleanup item) scope

/-- A block is typed. -/
inductive TypesBlock (c : Context) : List SymbolId → BlockOf Stmt → List SymbolId → Prop
  | mk {scope inner : List SymbolId} {id : NodeId} {span : Span} {stmts : List Stmt} :
      TypesStmts c scope stmts inner → TypesBlock c scope ⟨id, span, stmts⟩ inner

/-- Statements are typed one after the other. -/
inductive TypesStmts (c : Context) : List SymbolId → List Stmt → List SymbolId → Prop
  | nil {scope : List SymbolId} : TypesStmts c scope [] scope
  | cons {scope scope' scope'' : List SymbolId} {s : Stmt} {ss : List Stmt} :
      TypesStmt c scope s scope' → TypesStmts c scope' ss scope'' →
      TypesStmts c scope (s :: ss) scope''

end

section Scopes

variable {c : Context} {scope scope' : List SymbolId}

/-- More symbols may be in scope. -/
theorem HasType.mono {e : Expr} {type : Ty} (h : c.HasType scope e type)
    (hsub : scope ⊆ scope') : c.HasType scope' e type := by
  induction h with
  | bool htype => exact .bool htype
  | int hvalue htype => exact .int hvalue htype
  | str htype => exact .str htype
  | var hresolved hscope hsymbol htype => exact .var hresolved (hsub hscope) hsymbol htype
  | binary _ _ hadmits htype hleft hright => exact .binary hleft hright hadmits htype
  | field _ hfield htype hbase => exact .field hbase hfield htype
  | range _ hint htype hbound => exact .range hbound hint htype

theorem TypesCall.mono {call : Call} (h : c.TypesCall scope call) (hsub : scope ⊆ scope') :
    c.TypesCall scope' call := by
  cases h with
  | print hcallee hargs harg hprintable => exact .print hcallee hargs (harg.mono hsub) hprintable
  | function hcallee hfunction hargs => exact .function hcallee hfunction hargs
  | routine hcallee hfunction hargs =>
    refine .routine hcallee hfunction fun arg harg => ?_
    obtain ⟨type, htype⟩ := hargs arg harg
    exact ⟨type, htype.mono hsub⟩

mutual

/-- What is in scope in front of a statement is so behind it. -/
theorem TypesStmt.scope_subset (s : Stmt) {scope scope' : List SymbolId}
    (h : c.TypesStmt scope s scope') : scope ⊆ scope' := by
  match s, h with
  | .varDecl _, .varDecl _ _ _ _ => exact List.subset_cons_self _ _
  | .block body, .block hbody => exact TypesBlock.scope_subset body hbody
  | .assign _ _ _, .assign _ _ _ => exact List.Subset.refl _
  | .call _ _, .call _ => exact List.Subset.refl _
  | .ifElse _ _ _ none, .ifThen _ _ => exact List.Subset.refl _
  | .ifElse _ _ _ (some _), .ifElse _ _ _ => exact List.Subset.refl _
  | .whileLoop _ _ _, .whileLoop _ _ => exact List.Subset.refl _
  | .forIn _ _ _ _ _, .forIn _ _ _ _ _ _ => exact List.Subset.refl _
  | .ret _ _, .ret => exact List.Subset.refl _
  | .defer _ _, .defer _ => exact List.Subset.refl _
  | .cleanup _, .cleanup _ => exact List.Subset.refl _

theorem TypesBlock.scope_subset (b : BlockOf Stmt) {scope scope' : List SymbolId}
    (h : c.TypesBlock scope b scope') : scope ⊆ scope' := by
  match b, h with
  | ⟨_, _, stmts⟩, .mk hstmts => exact TypesStmts.scope_subset stmts hstmts

theorem TypesStmts.scope_subset (ss : List Stmt) {scope scope' : List SymbolId}
    (h : c.TypesStmts scope ss scope') : scope ⊆ scope' := by
  match ss, h with
  | [], .nil => exact List.Subset.refl _
  | s :: ss, .cons hs hss =>
    exact List.Subset.trans (TypesStmt.scope_subset s hs) (TypesStmts.scope_subset ss hss)

end

theorem TypesStmts.append {xs ys : List Stmt} {scope mid scope' : List SymbolId}
    (hxs : c.TypesStmts scope xs mid) (hys : c.TypesStmts mid ys scope') :
    c.TypesStmts scope (xs ++ ys) scope' := by
  induction xs generalizing scope with
  | nil =>
    cases hxs
    exact hys
  | cons x xs ih =>
    cases hxs with
    | cons hx hrest => exact .cons hx (ih hrest)

theorem TypesStmts.of_append {xs ys : List Stmt} {scope scope' : List SymbolId}
    (h : c.TypesStmts scope (xs ++ ys) scope') :
    ∃ mid, c.TypesStmts scope xs mid ∧ c.TypesStmts mid ys scope' := by
  induction xs generalizing scope with
  | nil => exact ⟨scope, .nil, h⟩
  | cons x xs ih =>
    cases h with
    | cons hx hrest =>
      obtain ⟨mid, hxs, hys⟩ := ih hrest
      exact ⟨mid, .cons hx hxs, hys⟩

end Scopes

end Context

end DeferLang
