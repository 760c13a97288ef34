import DeferLang.Program.Basic
import DeferLang.Proofs.Places

/-!
# The outline of a program

The outline of a program is the tree of its spans: one node for every node,
identifier and operator of the program, each with the span it has there, and below it
those of its parts, in the order in which they are written.  A variable, as an
expression, is its identifier.  Fields and special
members of a class stand in two lists of the class, and classes and functions in two
lists of the program; an outline merges them by their offsets.  A cleanup statement
is not written in the text and has no node of its own.

`Outline.Laid` says that an outline lies on a text as it should: no span is empty, each
lies within that of the node above it, and the parts of a node stand apart, one behind
the other.
-/

namespace DeferLang

open List

/-- A span that neither starts nor ends behind another. -/
def Span.NotPast (a b : Span) : Prop :=
  a.offset ≤ b.offset ∧ a.stop ≤ b.stop

theorem Span.NotPast.refl (a : Span) : a.NotPast a :=
  ⟨Nat.le_refl _, Nat.le_refl _⟩

theorem Span.NotPast.trans {a b d : Span} (hab : a.NotPast b) (hbd : b.NotPast d) : a.NotPast d :=
  ⟨Nat.le_trans hab.1 hbd.1, Nat.le_trans hab.2 hbd.2⟩

/-- A tree of spans.  The node of an identifier holds its name as `word`. -/
inductive Outline where
  | node (span : Span) (word : Option String) (parts : List Outline)

namespace Outline

def span : Outline → Span
  | .node span _ _ => span

def word : Outline → Option String
  | .node _ word _ => word

def parts : Outline → List Outline
  | .node _ _ parts => parts

/-- A node without parts. -/
abbrev leaf (span : Span) : Outline :=
  .node span none []

/-- Two lists of outlines, merged by where they start. -/
def merged (xs ys : List Outline) : List Outline :=
  xs.merge ys fun a b => a.span.offset ≤ b.span.offset

mutual

/-- An outline and everything below it. -/
def nodes : Outline → List Outline
  | .node span word parts => .node span word parts :: nodesOf parts

def nodesOf : List Outline → List Outline
  | [] => []
  | o :: os => o.nodes ++ nodesOf os

end

end Outline

def Ident.outline (x : Ident) : Outline :=
  .node x.span (some x.name) []

def Expr.outline : Expr → Outline
  | .bool _ span _ => .leaf span
  | .int _ span _ => .leaf span
  | .str _ span _ => .leaf span
  | .var _ name => name.outline
  | .binary _ span _ opSpan left right =>
    .node span none [left.outline, .leaf opSpan, right.outline]
  | .field _ span base name => .node span none [base.outline, name.outline]
  | .range _ span bound => .node span none [bound.outline]

def TypeName.outlines : TypeName → List Outline
  | .named name => [name.outline]
  | .int => []
  | .bool => []
  | .void => []
  | .auto => []

def TypeRef.outline (t : TypeRef) : Outline :=
  .node t.span none t.base.outlines

def VarDecl.outline (d : VarDecl) : Outline :=
  .node d.span none (d.type.outline :: d.name.outline :: d.init.toList.map Expr.outline)

def Call.outline (c : Call) : Outline :=
  .node c.span none (c.callee.outline :: c.args.map Expr.outline)

/-- The call that a cleanup executes is written at its `defer`. -/
def CleanupAction.outlines : CleanupAction → List Outline
  | .deferred call => [call.outline]
  | .destructor => []
  | .releasedBy _ => []

mutual

def Stmt.outlines : Stmt → List Outline
  | .varDecl d => [d.outline]
  | .assign span target value => [.node span none [target.outline, value.outline]]
  | .call span call => [.node span none [call.outline]]
  | .block body => [outlineOfBlock body]
  | .ifElse span cond thenBody none =>
    [.node span none [cond.outline, outlineOfBlock thenBody]]
  | .ifElse span cond thenBody (some elseBody) =>
    [.node span none [cond.outline, outlineOfBlock thenBody, outlineOfBlock elseBody]]
  | .whileLoop span cond body => [.node span none [cond.outline, outlineOfBlock body]]
  | .forIn _ span var iter body =>
    [.node span none [var.outline, iter.outline, outlineOfBlock body]]
  | .ret span value => [.node span none (value.toList.map Expr.outline)]
  | .defer span call => [.node span none [call.outline]]
  | .cleanup item => item.action.outlines

def outlineOfBlock : BlockOf Stmt → Outline
  | ⟨_, span, stmts⟩ => .node span none (outlinesOfStmts stmts)

def outlinesOfStmts : List Stmt → List Outline
  | [] => []
  | s :: ss => s.outlines ++ outlinesOfStmts ss

end

def CtorBody.outlines : CtorBody → List Outline
  | .body block => [outlineOfBlock block]
  | .defaulted => []
  | .deleted => []

def CtorDecl.outline (c : CtorDecl) : Outline :=
  .node c.span none c.body.outlines

def FieldDef.outline (f : FieldDef) : Outline :=
  .node f.span none [f.type.outline, f.name.outline]

def ClassDef.outline (c : ClassDef) : Outline :=
  .node c.span none (c.name.outline ::
    Outline.merged (c.fields.map FieldDef.outline) (c.ctors.map CtorDecl.outline))

def Function.outline (f : Function) : Outline :=
  .node f.span none [f.name.outline, outlineOfBlock f.body]

def Program.outline (p : Program) : Outline :=
  .node p.span none
    (Outline.merged (p.classes.map ClassDef.outline) (p.functions.map Function.outline))

@[simp] theorem Outline.span_node (span : Span) (word : Option String) (parts : List Outline) :
    (Outline.node span word parts).span = span :=
  rfl

@[simp] theorem Ident.span_outline (x : Ident) : x.outline.span = x.span :=
  rfl

@[simp] theorem Expr.span_outline (e : Expr) : e.outline.span = e.span := by
  cases e <;> rfl

@[simp] theorem TypeRef.span_outline (t : TypeRef) : t.outline.span = t.span :=
  rfl

@[simp] theorem Call.span_outline (c : Call) : c.outline.span = c.span :=
  rfl

@[simp] theorem span_outlineOfBlock (b : Block) : (outlineOfBlock b).span = b.span := by
  cases b
  rfl

theorem outlinesOfStmts_eq_flatMap (ss : List Stmt) :
    outlinesOfStmts ss = ss.flatMap Stmt.outlines := by
  induction ss with
  | nil => rfl
  | cons s ss ih => rw [outlinesOfStmts, ih, flatMap_cons]

namespace Outline

mutual

/-- An outline that lies on a text as it should. -/
def Laid (text : List Char) : Outline → Prop
  | .node span word parts =>
    span.Shows text ∧ (∀ name, word = some name → span.Marks text name.toList) ∧
      InRow text parts span.offset span.stop

/-- Outlines that lie on a text one behind the other, between two offsets. -/
def InRow (text : List Char) : List Outline → Nat → Nat → Prop
  | [], start, stop => start ≤ stop
  | o :: os, start, stop => start ≤ o.span.offset ∧ o.Laid text ∧ InRow text os o.span.stop stop

end

variable {text : List Char} {o : Outline} {xs ys os parts : List Outline} {start stop : Nat}

theorem nodes_eq (o : Outline) : o.nodes = o :: nodesOf o.parts := by
  cases o
  rfl

theorem Laid.shows (h : o.Laid text) : o.span.Shows text := by
  cases o
  exact h.1

theorem Laid.inRow (h : o.Laid text) : InRow text o.parts o.span.offset o.span.stop := by
  cases o
  exact h.2.2

theorem Laid.marks (h : o.Laid text) {name : String} (hname : o.word = some name) :
    o.span.Marks text name.toList := by
  cases o
  exact h.2.1 name hname

namespace InRow

theorem le (h : InRow text os start stop) : start ≤ stop := by
  induction os generalizing start with
  | nil => exact h
  | cons o os ih =>
    obtain ⟨hstart, ho, hrest⟩ := h
    have hlt := ho.shows.nonempty
    have hle := ih hrest
    omega

theorem mono (h : InRow text os start stop) {start' stop' : Nat} (hstart : start' ≤ start)
    (hstop : stop ≤ stop') : InRow text os start' stop' := by
  induction os generalizing start start' with
  | nil => exact Nat.le_trans hstart (Nat.le_trans h hstop)
  | cons o os ih =>
    obtain ⟨hle, ho, hrest⟩ := h
    exact ⟨Nat.le_trans hstart hle, ho, ih hrest (Nat.le_refl _)⟩

theorem append {mid : Nat} (hxs : InRow text xs start mid) (hys : InRow text ys mid stop) :
    InRow text (xs ++ ys) start stop := by
  induction xs generalizing start with
  | nil => exact hys.mono hxs (Nat.le_refl _)
  | cons o os ih =>
    obtain ⟨hle, ho, hrest⟩ := hxs
    exact ⟨hle, ho, ih hrest⟩

theorem exists_mid (h : InRow text (xs ++ ys) start stop) :
    ∃ mid, InRow text xs start mid ∧ InRow text ys mid stop := by
  induction xs generalizing start with
  | nil => exact ⟨start, Nat.le_refl _, h⟩
  | cons o os ih =>
    obtain ⟨hle, ho, hrest⟩ := h
    obtain ⟨mid, hos, hys⟩ := ih hrest
    exact ⟨mid, ⟨hle, ho, hos⟩, hys⟩

theorem sublist (h : InRow text ys start stop) (hsub : xs.Sublist ys) :
    InRow text xs start stop := by
  induction hsub generalizing start with
  | slnil => exact h
  | cons o _ ih =>
    obtain ⟨hle, ho, hrest⟩ := h
    have hlt := ho.shows.nonempty
    exact ih (hrest.mono (by omega) (Nat.le_refl _))
  | cons_cons o _ ih =>
    obtain ⟨hle, ho, hrest⟩ := h
    exact ⟨hle, ho, ih hrest⟩

theorem of_mem (h : InRow text os start stop) (hmem : o ∈ os) :
    o.Laid text ∧ start ≤ o.span.offset ∧ o.span.stop ≤ stop := by
  have hone := h.sublist (singleton_sublist.2 hmem)
  exact ⟨hone.2.1, hone.1, hone.2.2⟩

theorem pairwise (h : InRow text os start stop) :
    os.Pairwise fun a b => a.span.stop ≤ b.span.offset := by
  induction os generalizing start with
  | nil => exact List.Pairwise.nil
  | cons o os ih =>
    obtain ⟨-, -, hrest⟩ := h
    exact pairwise_cons.2 ⟨fun b hb => (hrest.of_mem hb).2.1, ih hrest⟩

/-- Parts that are merged by where they start stand in the order in which they are written. -/
theorem merged_eq (h : InRow text os start stop) (hperm : (xs ++ ys).Perm os)
    (hxs : xs.Sublist os) (hys : ys.Sublist os) : merged xs ys = os := by
  have hrising : os.Pairwise fun a b => a.span.offset < b.span.offset := by
    refine h.pairwise.imp_of_mem fun {a b} ha _ hle => ?_
    exact Nat.lt_of_lt_of_le (h.of_mem ha).1.shows.nonempty hle
  have hsorted {zs : List Outline} (hzs : zs.Sublist os) :
      zs.Pairwise fun a b => decide (a.span.offset ≤ b.span.offset) = true :=
    (hrising.sublist hzs).imp fun hlt => decide_eq_true (Nat.le_of_lt hlt)
  have hmerged : (merged xs ys).Pairwise fun a b =>
      decide (a.span.offset ≤ b.span.offset) = true := by
    refine pairwise_merge (fun a b c => ?_) (fun a b => ?_) _ _ (hsorted hxs) (hsorted hys)
    · simp only [decide_eq_true_eq]
      exact Nat.le_trans
    · simp only [Bool.or_eq_true, decide_eq_true_eq]
      exact Nat.le_total _ _
  have hsame : (merged xs ys).Perm os := (merge_perm_append _).trans hperm
  -- no two parts start at one offset, so only one order of them rises
  refine hsame.eq_of_pairwise (fun a b ha hb hab hba => ?_) hmerged (hsorted (List.Sublist.refl _))
  have hdistinct : os.Pairwise fun a b => a.span.offset ≠ b.span.offset :=
    hrising.imp Nat.ne_of_lt
  have hsymm : Std.Symm fun a b : Outline => a.span.offset ≠ b.span.offset :=
    ⟨fun _ _ => Ne.symm⟩
  by_contra hne
  exact hdistinct.forall (hsame.mem_iff.1 ha) hb hne
    (Nat.le_antisymm (of_decide_eq_true hab) (of_decide_eq_true hba))

/-- Parts of two sorts, taken apart and merged again. -/
theorem merged_filterMap {α β γ : Type} {f? : α → Option β} {g? : α → Option γ} {u : β → Outline}
    {v : γ → Outline} {w : α → Outline} {xs : List α}
    (hsort : ∀ x, (∃ y, f? x = some y ∧ g? x = none ∧ w x = u y) ∨
      (∃ y, f? x = none ∧ g? x = some y ∧ w x = v y)) (h : InRow text (xs.map w) start stop) :
    merged ((xs.filterMap f?).map u) ((xs.filterMap g?).map v) = xs.map w := by
  suffices hparts : (((xs.filterMap f?).map u) ++ ((xs.filterMap g?).map v)).Perm (xs.map w) ∧
      ((xs.filterMap f?).map u).Sublist (xs.map w) ∧
      ((xs.filterMap g?).map v).Sublist (xs.map w) from
    h.merged_eq hparts.1 hparts.2.1 hparts.2.2
  clear h
  induction xs with
  | nil => exact ⟨.refl _, .refl _, .refl _⟩
  | cons x xs ih =>
    obtain ⟨hperm, hfirst, hsecond⟩ := ih
    rcases hsort x with ⟨y, hf, hg, hw⟩ | ⟨y, hf, hg, hw⟩
    · rw [filterMap_cons_some hf, filterMap_cons_none hg, map_cons, map_cons, hw]
      exact ⟨hperm.cons _, hfirst.cons_cons _, hsecond.cons _⟩
    · rw [filterMap_cons_none hf, filterMap_cons_some hg, map_cons, map_cons, hw]
      exact ⟨perm_middle.trans (hperm.cons _), hfirst.cons _, hsecond.cons_cons _⟩

end InRow

mutual

/-- What lies below a node lies within its span. -/
theorem Laid.of_mem_nodes {o d : Outline} (h : o.Laid text) (hmem : d ∈ o.nodes) :
    d.Laid text ∧ o.span.offset ≤ d.span.offset ∧ d.span.stop ≤ o.span.stop := by
  match o with
  | .node span word parts =>
    rw [nodes_eq, mem_cons] at hmem
    rcases hmem with rfl | hmem
    · exact ⟨h, Nat.le_refl _, Nat.le_refl _⟩
    · exact InRow.of_mem_nodesOf h.inRow hmem

theorem InRow.of_mem_nodesOf {os : List Outline} {d : Outline} {start stop : Nat}
    (h : InRow text os start stop) (hmem : d ∈ nodesOf os) :
    d.Laid text ∧ start ≤ d.span.offset ∧ d.span.stop ≤ stop := by
  match os with
  | [] => contradiction
  | o :: os =>
    obtain ⟨hstart, ho, hrest⟩ := h
    have hlt := ho.shows.nonempty
    have hle := hrest.le
    rw [nodesOf, mem_append] at hmem
    rcases hmem with hmem | hmem
    · obtain ⟨hd, hfirst, hlast⟩ := Laid.of_mem_nodes ho hmem
      exact ⟨hd, by omega, by omega⟩
    · obtain ⟨hd, hfirst, hlast⟩ := InRow.of_mem_nodesOf hrest hmem
      exact ⟨hd, by omega, by omega⟩

end

section Every

variable {P : Span → Prop} {o n : Outline} {os : List Outline}

/-- All spans of an outline have a property. -/
def Every (P : Span → Prop) (o : Outline) : Prop :=
  ∀ n ∈ o.nodes, P n.span

theorem mem_nodesOf : n ∈ nodesOf os ↔ ∃ o ∈ os, n ∈ o.nodes := by
  induction os with
  | nil => simp [nodesOf]
  | cons o os ih => simp [nodesOf, ih]

theorem every_iff : o.Every P ↔ P o.span ∧ ∀ part ∈ o.parts, part.Every P := by
  unfold Every
  rw [nodes_eq, forall_mem_cons]
  refine and_congr_right fun _ => ?_
  simp only [mem_nodesOf]
  exact ⟨fun h part hpart n hn => h n ⟨part, hpart, hn⟩, fun h n ⟨part, hpart, hn⟩ =>
    h part hpart n hn⟩

@[simp] theorem every_node {span : Span} {word : Option String} {parts : List Outline} :
    (node span word parts).Every P ↔ P span ∧ ∀ part ∈ parts, part.Every P :=
  every_iff

theorem Every.at (h : o.Every P) : P o.span :=
  (every_iff.1 h).1

/-- Every span of a row shows some of the text. -/
theorem InRow.every_shows (h : InRow text os start stop) (hmem : o ∈ os) :
    o.Every (Span.Shows text) :=
  fun _ hn => ((h.of_mem hmem).1.of_mem_nodes hn).1.shows

end Every

section Rows

variable {before mid : List Outline} {a z : Outline} {edge edge' span : Span}

/-- A row of outlines up to the edge of the token read last. -/
structure Row (text : List Char) (os : List Outline) (start : Nat) (edge : Span) : Prop where
  inRow : InRow text os start edge.stop
  begun : ∀ o ∈ os, o.span.offset ≤ edge.offset

namespace Row

theorem mono (h : Row text os start edge) (hedge : edge.NotPast edge') : Row text os start edge' :=
  ⟨h.inRow.mono (Nat.le_refl _) hedge.2, fun o ho => Nat.le_trans (h.begun o ho) hedge.1⟩

theorem sublist (h : Row text os start edge) (hsub : before.Sublist os) :
    Row text before start edge :=
  ⟨h.inRow.sublist hsub, fun o ho => h.begun o (hsub.subset ho)⟩

/-- A row that goes on where another ends. -/
theorem append (h : Row text xs start edge) (hedge : edge.NotPast edge')
    (h' : Row text ys edge.stop edge') : Row text (xs ++ ys) start edge' := by
  refine ⟨h.inRow.append h'.inRow, fun o ho => ?_⟩
  rcases mem_append.1 ho with ho | ho
  · exact Nat.le_trans (h.begun o ho) hedge.1
  · exact h'.begun o ho

/-- A token or a larger part is put at the end of the row. -/
theorem push (h : Row text os start edge) (hedge : edge.NotPast a.span)
    (hstart : edge.stop ≤ a.span.offset) (ha : a.Laid text) :
    Row text (os ++ [a]) start a.span := by
  refine ⟨h.inRow.append ⟨hstart, ha, Nat.le_refl _⟩, fun o ho => ?_⟩
  rcases mem_append.1 ho with ho | ho
  · exact Nat.le_trans (h.begun o ho) hedge.1
  · rw [mem_singleton.1 ho]

/-- The end of the row becomes the parts of one node. -/
theorem gather (h : Row text (before ++ a :: os) start edge) (hparts : parts.Sublist (a :: os))
    (hshows : span.Shows text) (hoffset : span.offset = a.span.offset)
    (hos : InRow text os a.span.stop span.stop) (hstop : span.stop ≤ edge.stop) :
    Row text (before ++ [.node span none parts]) start edge := by
  obtain ⟨mid, hbefore, hmid, ha, -⟩ := h.inRow.exists_mid
  have hall : InRow text (a :: os) span.offset span.stop :=
    ⟨Nat.le_of_eq hoffset, ha, hos⟩
  refine ⟨hbefore.append ⟨?_, ⟨hshows, nofun, hall.sublist hparts⟩, hstop⟩, fun o ho => ?_⟩
  · rw [span_node, hoffset]
    exact hmid
  · rcases mem_append.1 ho with ho | ho
    · exact h.begun o (mem_append_left _ ho)
    · rw [mem_singleton.1 ho, span_node, hoffset]
      exact h.begun a (mem_append_right _ mem_cons_self)

/-- A node from its first part to its last. -/
theorem join (h : Row text (before ++ a :: (mid ++ [z])) start edge)
    (hparts : parts.Sublist (a :: (mid ++ [z]))) :
    Row text (before ++ [.node (Span.join a.span z.span) none parts]) start edge := by
  obtain ⟨_, -, -, ha, hrest⟩ := h.inRow.exists_mid
  obtain ⟨_, hmid, hle, hz, hstop⟩ := hrest.exists_mid
  have hlt := ha.shows.nonempty
  have hlt' := hz.shows.nonempty
  have hmidLe := hmid.le
  have hoffset : (Span.join a.span z.span).offset = a.span.offset := by
    rw [Span.offset_join]
    omega
  have hjoin : (Span.join a.span z.span).stop = z.span.stop := by
    rw [Span.stop_join]
    omega
  refine h.gather hparts (ha.shows.join hz.shows) hoffset ?_ ?_
  · rw [hjoin]
    exact hmid.append ⟨hle, hz, Nat.le_refl _⟩
  · rw [hjoin]
    exact hstop

/-- A node from its first part to the token read last. -/
theorem joinEdge (h : Row text (before ++ a :: os) start edge) (hparts : parts.Sublist (a :: os))
    (hedge : edge.Shows text) :
    Row text (before ++ [.node (Span.join a.span edge) none parts]) start edge := by
  obtain ⟨_, -, -, ha, hrest⟩ := h.inRow.exists_mid
  have hbegun := h.begun a (mem_append_right _ mem_cons_self)
  have hle := hrest.le
  have hjoin : (Span.join a.span edge).stop = edge.stop := by
    rw [Span.stop_join]
    omega
  refine h.gather hparts (ha.shows.join hedge) ?_ ?_ ?_
  · rw [Span.offset_join]
    omega
  · rwa [hjoin]
  · rw [hjoin]

end Row

end Rows

end Outline

end DeferLang
