import DeferLang.Program.Parse

/-!
# The shape of a tree

Erasing a tree blanks its spans and renames its node numbers.  Two trees are
equal up to spans if erasing their spans makes them equal, and equal up to spans
and numbers if they have the same shape, in which every number is the same.
-/

namespace DeferLang

/-- The span in place of all others. -/
def Span.blank : Span :=
  ⟨0, 0⟩

@[simp] def Ident.erase (x : Ident) : Ident :=
  ⟨x.name, .blank⟩

section Erase

variable (number : NodeId → NodeId)

@[simp] def Expr.erase : Expr → Expr
  | .bool id _ value => .bool (number id) .blank value
  | .int id _ value => .int (number id) .blank value
  | .str id _ value => .str (number id) .blank value
  | .var id name => .var (number id) name.erase
  | .binary id _ op _ left right =>
    .binary (number id) .blank op .blank left.erase right.erase
  | .field id _ base name => .field (number id) .blank base.erase name.erase
  | .range id _ bound => .range (number id) .blank bound.erase

@[simp] def TypeName.erase : TypeName → TypeName
  | .named name => .named name.erase
  | base => base

@[simp] def TypeRef.erase (t : TypeRef) : TypeRef :=
  ⟨.blank, t.isConst, t.base.erase, t.modifiers⟩

@[simp] def VarDecl.erase (d : VarDecl) : VarDecl :=
  ⟨number d.id, .blank, d.type.erase, d.name.erase, d.init.map (Expr.erase number)⟩

@[simp] def Call.erase (c : Call) : Call :=
  ⟨number c.id, .blank, c.callee.erase, c.args.map (Expr.erase number)⟩

@[simp] def CleanupAction.erase : CleanupAction → CleanupAction
  | .deferred call => .deferred (call.erase number)
  | action => action

@[simp] def Cleanup.erase (item : Cleanup) : Cleanup :=
  ⟨.blank, item.var.erase, number item.decl, item.action.erase number⟩

mutual

@[simp] def Stmt.erase : Stmt → Stmt
  | .varDecl d => .varDecl (d.erase number)
  | .assign _ target value => .assign .blank (target.erase number) (value.erase number)
  | .call _ c => .call .blank (c.erase number)
  | .block body => .block (eraseBlock body)
  | .ifElse _ cond thenBody none => .ifElse .blank (cond.erase number) (eraseBlock thenBody) none
  | .ifElse _ cond thenBody (some elseBody) =>
    .ifElse .blank (cond.erase number) (eraseBlock thenBody) (some (eraseBlock elseBody))
  | .whileLoop _ cond body => .whileLoop .blank (cond.erase number) (eraseBlock body)
  | .forIn id _ var iter body =>
    .forIn (number id) .blank var.erase (iter.erase number) (eraseBlock body)
  | .ret _ value => .ret .blank (value.map (Expr.erase number))
  | .defer _ c => .defer .blank (c.erase number)
  | .cleanup item => .cleanup (item.erase number)

@[simp] def eraseBlock : BlockOf Stmt → BlockOf Stmt
  | ⟨id, _, stmts⟩ => ⟨number id, .blank, eraseStmts stmts⟩

@[simp] def eraseStmts : List Stmt → List Stmt
  | [] => []
  | s :: ss => s.erase :: eraseStmts ss

end

theorem eraseStmts_eq_map (ss : List Stmt) : eraseStmts number ss = ss.map (Stmt.erase number) := by
  induction ss with
  | nil => rfl
  | cons s ss ih => rw [eraseStmts, ih, List.map_cons]

@[simp] def CtorBody.erase : CtorBody → CtorBody
  | .body block => .body (eraseBlock number block)
  | .defaulted => .defaulted
  | .deleted => .deleted

@[simp] def CtorDecl.erase (c : CtorDecl) : CtorDecl :=
  ⟨.blank, c.kind, c.isExplicit, c.body.erase number⟩

@[simp] def FieldDef.erase (f : FieldDef) : FieldDef :=
  ⟨.blank, f.type.erase, f.name.erase⟩

@[simp] def ClassDef.erase (c : ClassDef) : ClassDef :=
  ⟨number c.id, .blank, c.name.erase, c.fields.map FieldDef.erase,
    c.ctors.map (CtorDecl.erase number)⟩

@[simp] def Function.erase (f : Function) : Function :=
  ⟨number f.id, .blank, f.name.erase, eraseBlock number f.body⟩

@[simp] def Program.erase (p : Program) : Program :=
  ⟨.blank, p.functions.map (Function.erase number), p.classes.map (ClassDef.erase number)⟩

@[simp] def Parser.Member.erase : Parser.Member → Parser.Member
  | .field f => .field f.erase
  | .ctor c => .ctor (c.erase number)

@[simp] def Parser.Item.erase : Parser.Item → Parser.Item
  | .ofFunction f => .ofFunction (f.erase number)
  | .ofClass c => .ofClass (c.erase number)

/-- What is picked out of erased things is picked out and then erased. -/
theorem filterMap_map_erase {α β : Type} {pick : α → Option β} {f : α → α} {g : β → β}
    (h : ∀ a, pick (f a) = (pick a).map g) (as : List α) :
    (as.map f).filterMap pick = (as.filterMap pick).map g := by
  rw [List.filterMap_map, List.map_filterMap]
  exact congrArg (List.filterMap · as) (funext h)

namespace Parser

theorem filterMap_field?_erase (members : List Member) :
    (members.map (Member.erase number)).filterMap Member.field? =
      (members.filterMap Member.field?).map FieldDef.erase :=
  filterMap_map_erase (fun m => by cases m <;> rfl) members

theorem filterMap_ctor?_erase (members : List Member) :
    (members.map (Member.erase number)).filterMap Member.ctor? =
      (members.filterMap Member.ctor?).map (CtorDecl.erase number) :=
  filterMap_map_erase (fun m => by cases m <;> rfl) members

theorem filterMap_function?_erase (items : List Item) :
    (items.map (Item.erase number)).filterMap Item.function? =
      (items.filterMap Item.function?).map (Function.erase number) :=
  filterMap_map_erase (fun i => by cases i <;> rfl) items

theorem filterMap_classDef?_erase (items : List Item) :
    (items.map (Item.erase number)).filterMap Item.classDef? =
      (items.filterMap Item.classDef?).map (ClassDef.erase number) :=
  filterMap_map_erase (fun i => by cases i <;> rfl) items

end Parser

end Erase

/-- One number for every node. -/
def unnumbered : NodeId → NodeId :=
  fun _ => 0

/-- An expression without its spans. -/
def Expr.unspanned (e : Expr) : Expr :=
  e.erase fun id => id

/- Trees without their spans. -/
section Unspanned

abbrev VarDecl.unspanned (d : VarDecl) : VarDecl :=
  d.erase fun id => id

abbrev Call.unspanned (c : Call) : Call :=
  c.erase fun id => id

abbrev Stmt.unspanned (s : Stmt) : Stmt :=
  s.erase fun id => id

abbrev Block.unspanned (b : Block) : Block :=
  eraseBlock (fun id => id) b

abbrev CtorBody.unspanned (body : CtorBody) : CtorBody :=
  body.erase fun id => id

abbrev CtorDecl.unspanned (c : CtorDecl) : CtorDecl :=
  c.erase fun id => id

abbrev ClassDef.unspanned (c : ClassDef) : ClassDef :=
  c.erase fun id => id

abbrev Function.unspanned (f : Function) : Function :=
  f.erase fun id => id

abbrev Program.unspanned (p : Program) : Program :=
  p.erase fun id => id

end Unspanned

/-- A program without its spans and numbers. -/
def Program.shape (p : Program) : Program :=
  p.erase unnumbered

end DeferLang
