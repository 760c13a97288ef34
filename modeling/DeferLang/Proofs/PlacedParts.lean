import DeferLang.Proofs.Outline
import DeferLang.Typing.Check

/-!
# Spans of the parts of a program

What holds of all spans of a node holds of the node and of its parts.  Passes that
walk through a program take such a property apart with the lemmas here, one for each
kind of node.
-/

namespace DeferLang

variable {id : NodeId} {span : Span}

variable {P : Span → Prop}

section Parts

/- What a property of all spans says of the spans of a node and of its parts. -/

@[simp] theorem Ident.every_outline {x : Ident} : x.outline.Every P ↔ P x.span := by
  simp [Ident.outline]

theorem Expr.span_of_every {e : Expr} (h : e.outline.Every P) : P e.span :=
  e.span_outline ▸ h.at

theorem Expr.every_binary {opSpan : Span} {op : BinOp} {left right : Expr} :
    (Expr.binary id span op opSpan left right).outline.Every P ↔
      P span ∧ left.outline.Every P ∧ P opSpan ∧ right.outline.Every P := by
  refine Outline.every_node.trans ?_
  simp

theorem Expr.every_field {base : Expr} {name : Ident} :
    (Expr.field id span base name).outline.Every P ↔
      P span ∧ base.outline.Every P ∧ P name.span := by
  refine Outline.every_node.trans ?_
  simp

theorem Expr.every_range {bound : Expr} :
    (Expr.range id span bound).outline.Every P ↔ P span ∧ bound.outline.Every P := by
  refine Outline.every_node.trans ?_
  simp

theorem Call.every_outline {c : Call} : c.outline.Every P ↔
    P c.span ∧ P c.callee.span ∧ ∀ e ∈ c.args, e.outline.Every P := by
  simp [Call.outline]

theorem VarDecl.every_outline {d : VarDecl} : d.outline.Every P ↔
    P d.span ∧ d.type.outline.Every P ∧ P d.name.span ∧
      ∀ e, d.init = some e → e.outline.Every P := by
  simp [VarDecl.outline]

theorem every_outlineOfBlock {stmts : List Stmt} :
    (outlineOfBlock ⟨id, span, stmts⟩).Every P ↔
      P span ∧ ∀ o ∈ outlinesOfStmts stmts, o.Every P :=
  Outline.every_node

namespace Stmt

/-- All spans of a statement, or of the call that a cleanup statement hands on. -/
def Every (P : Span → Prop) (s : Stmt) : Prop :=
  ∀ o ∈ s.outlines, o.Every P

variable {span : Span} {cond iter target value : Expr} {call : Call}
  {thenBody elseBody body : Block}

/-- Most statements have one outline. -/
theorem every_of_outlines {s : Stmt} {word : Option String} {parts : List Outline}
    (h : s.outlines = [.node span word parts]) :
    s.Every P ↔ P span ∧ ∀ part ∈ parts, part.Every P := by
  unfold Every
  rw [h, List.forall_mem_singleton, Outline.every_node]

theorem every_varDecl {d : VarDecl} : (Stmt.varDecl d).Every P ↔ d.outline.Every P :=
  List.forall_mem_singleton

theorem every_assign : (Stmt.assign span target value).Every P ↔
    P span ∧ target.outline.Every P ∧ value.outline.Every P := by
  rw [every_of_outlines rfl]
  simp

theorem every_call : (Stmt.call span call).Every P ↔ P span ∧ call.outline.Every P := by
  rw [every_of_outlines rfl]
  simp

theorem every_block : (Stmt.block body).Every P ↔ (outlineOfBlock body).Every P :=
  List.forall_mem_singleton

theorem every_ifThen : (Stmt.ifElse span cond thenBody none).Every P ↔
    P span ∧ cond.outline.Every P ∧ (outlineOfBlock thenBody).Every P := by
  rw [every_of_outlines rfl]
  simp

theorem every_ifElse : (Stmt.ifElse span cond thenBody (some elseBody)).Every P ↔
    P span ∧ cond.outline.Every P ∧ (outlineOfBlock thenBody).Every P ∧
      (outlineOfBlock elseBody).Every P := by
  rw [every_of_outlines rfl]
  simp

theorem every_whileLoop : (Stmt.whileLoop span cond body).Every P ↔
    P span ∧ cond.outline.Every P ∧ (outlineOfBlock body).Every P := by
  rw [every_of_outlines rfl]
  simp

theorem every_forIn {var : Ident} : (Stmt.forIn id span var iter body).Every P ↔
    P span ∧ P var.span ∧ iter.outline.Every P ∧ (outlineOfBlock body).Every P := by
  rw [every_of_outlines rfl]
  simp

theorem every_ret_some : (Stmt.ret span (some value)).Every P ↔
    P span ∧ value.outline.Every P := by
  rw [every_of_outlines rfl]
  simp

theorem every_defer : (Stmt.defer span call).Every P ↔ P span ∧ call.outline.Every P := by
  rw [every_of_outlines rfl]
  simp

end Stmt

theorem every_cons {s : Stmt} {ss : List Stmt} :
    (∀ o ∈ outlinesOfStmts (s :: ss), o.Every P) ↔
      s.Every P ∧ ∀ o ∈ outlinesOfStmts ss, o.Every P :=
  List.forall_mem_append

theorem FieldDef.every_outline {f : FieldDef} : f.outline.Every P ↔
    P f.span ∧ f.type.outline.Every P ∧ P f.name.span := by
  simp [FieldDef.outline]

theorem ClassDef.every_outline {c : ClassDef} : c.outline.Every P ↔
    P c.span ∧ P c.name.span ∧ (∀ f ∈ c.fields, f.outline.Every P) ∧
      ∀ d ∈ c.ctors, d.outline.Every P := by
  simp only [ClassDef.outline, Outline.merged, Outline.every_node, List.forall_mem_cons,
    Ident.every_outline, List.mem_merge, or_imp, forall_and, List.forall_mem_map]

theorem Function.every_outline {f : Function} : f.outline.Every P ↔
    P f.span ∧ P f.name.span ∧ (outlineOfBlock f.body).Every P := by
  simp [Function.outline]

end Parts

section Programs

/-- The spans of the classes and functions of a program have a property. -/
structure Program.Placed (P : Span → Prop) (p : Program) : Prop where
  classes : ∀ c ∈ p.classes, c.outline.Every P
  functions : ∀ f ∈ p.functions, f.outline.Every P

theorem CtorDecl.every_block {d : CtorDecl} (h : d.outline.Every P) {b : Block}
    (hb : d.block? = some b) : (outlineOfBlock b).Every P := by
  obtain ⟨span, kind, isExplicit, body⟩ := d
  cases body with
  | defaulted | deleted => contradiction
  | body block =>
    obtain rfl := Option.some.inj hb
    exact (Outline.every_node.1 h).2 _ (List.mem_singleton.2 rfl)

theorem Program.Placed.ctorBlocks {p : Program} (h : p.Placed P) {b : Block}
    (hb : b ∈ p.ctorBlocks) : (outlineOfBlock b).Every P := by
  obtain ⟨c, hc, hmem⟩ := List.mem_flatMap.1 hb
  obtain ⟨d, hd, hblock⟩ := List.mem_filterMap.1 hmem
  exact CtorDecl.every_block ((ClassDef.every_outline.1 (h.classes c hc)).2.2.2 d hd) hblock

end Programs

end DeferLang
