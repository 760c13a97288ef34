import DeferLang.Proofs.NodeIds
import Mathlib.Data.List.Nodup

/-!
# How points are nested

A point of a body is reached from the start of the body by going behind
statements and into blocks (`Point.In`).  Since no two nodes of a body have the
same number, neither have the variables that are visible at a point, nor the
blocks that are open there, and nothing behind the point was met before it.
What a block declares is seen at points of the block only (`Point.Enclosed`).
-/

namespace DeferLang

open List

/-- The blocks directly in a statement, each with what it is the body of and the variable of
its loop. -/
def Stmt.blocks : Stmt → List (ScopeKind × Option LocalVar × Block)
  | .block body => [(.block, none, body)]
  | .ifElse _ _ thenBody none => [(.thenBranch, none, thenBody)]
  | .ifElse _ _ thenBody (some elseBody) =>
    [(.thenBranch, none, thenBody), (.elseBranch, none, elseBody)]
  | .whileLoop _ _ body => [(.whileBody, none, body)]
  | .forIn id _ var _ body => [(.forBody, some ⟨id, var.name⟩, body)]
  | _ => []

/-- The numbers in a statement outside of its blocks. -/
def Stmt.ownIds : Stmt → List NodeId
  | .varDecl d => d.ids
  | .assign _ target value => target.ids ++ value.ids
  | .call _ c => c.ids
  | .block _ => []
  | .ifElse _ cond _ _ => cond.ids
  | .whileLoop _ cond _ => cond.ids
  | .forIn id _ _ iter _ => id :: iter.ids
  | .ret _ value => Expr.idsOf? value
  | .defer _ c => c.ids
  | .cleanup _ => []

/-- A statement with blocks is nothing else. -/
theorem Stmt.isCleanup_of_blocks {s : Stmt} (h : s.blocks ≠ []) :
    s.isCleanup = false ∧ s.isReturn = false ∧ s.declared? = none := by
  cases s <;> simp_all [Stmt.blocks, Stmt.isCleanup, Stmt.isReturn, Stmt.declared?]

/-- A block in a statement is a plain one, or it may not run. -/
theorem Stmt.plain_or_conditional {s : Stmt} {kind : ScopeKind} {loopVar : Option LocalVar}
    {b : Block} (h : (kind, loopVar, b) ∈ s.blocks) :
    kind = .block ∧ loopVar = none ∧ s = .block b ∨ kind.isConditional = true := by
  cases s with
  | block body =>
    left
    simpa [Stmt.blocks, eq_comm] using h
  | ifElse _ _ _ elseBody =>
    right
    cases elseBody <;>
      simp only [Stmt.blocks, mem_cons, not_mem_nil, or_false, Prod.mk.injEq] at h <;>
      grind [ScopeKind.isConditional]
  | whileLoop | forIn =>
    right
    rw [Stmt.blocks, mem_singleton, Prod.mk.injEq] at h
    rw [h.1]
    rfl
  | _ => contradiction

namespace Point

/-- The statements of the innermost scope behind a point. -/
def rest : Point → List Stmt
  | [] => []
  | sc :: _ => sc.rest

/-- The point behind the next statement. -/
def advance : Point → Point
  | ⟨head, before, s :: rest⟩ :: outer => ⟨head, before ++ [s], rest⟩ :: outer
  | p => p

/-- The point at the start of a block. -/
def enter (here : Point) (kind : ScopeKind) (loopVar : Option LocalVar) (b : Block) : Point :=
  ⟨⟨b.id, b.span, kind, loopVar⟩, [], b.stmts⟩ :: here

/-- The points of a body: those between its own statements, and those between the statements
of a block behind such a point. -/
inductive In (body : Block) : Point → Prop where
  | body {before rest : List Stmt} (hstmts : before ++ rest = body.stmts) :
      In body [⟨⟨body.id, body.span, .body, none⟩, before, rest⟩]
  | inner {here : Point} {s : Stmt} {kind : ScopeKind} {loopVar : Option LocalVar} {b : Block}
      {before rest : List Stmt} (hhere : In body here) (hnext : here.next? = some s)
      (hblock : (kind, loopVar, b) ∈ s.blocks) (hstmts : before ++ rest = b.stmts) :
      In body (⟨⟨b.id, b.span, kind, loopVar⟩, before, rest⟩ :: here)

variable {p here q : Point} {s : Stmt} {kind : ScopeKind} {loopVar : Option LocalVar} {b : Block}

theorem next?_eq_some (h : p.next? = some s) :
    ∃ head before rest outer, p = ⟨head, before, s :: rest⟩ :: outer := by
  match p with
  | ⟨head, before, s' :: rest⟩ :: outer =>
    obtain rfl : s' = s := by simpa [next?] using h
    exact ⟨head, before, rest, outer, rfl⟩

theorem rest_eq_of_next? (h : p.next? = some s) : p.rest = s :: p.advance.rest := by
  obtain ⟨head, before, rest, outer, rfl⟩ := next?_eq_some h
  rfl

/-- Behind a statement that is no cleanup, no cleanup has run yet. -/
theorem cleanupRun_advance (hnext : p.next? = some s) (hs : s.isCleanup = false) :
    p.advance.cleanupRun = [] := by
  obtain ⟨head, before, rest, outer, rfl⟩ := next?_eq_some hnext
  exact trailingCleanup_append_of_not before hs

theorem cleanupRun_advance_cleanup {item : Cleanup} (hnext : p.next? = some (.cleanup item)) :
    p.advance.cleanupRun = p.cleanupRun ++ [item] := by
  obtain ⟨head, before, rest, outer, rfl⟩ := next?_eq_some hnext
  exact trailingCleanup_append_cleanup before [item]

theorem visible_advance_of_next (hnext : p.next? = some s) :
    p.advance.visible = p.visible ++ s.declared?.toList := by
  obtain ⟨head, before, rest, outer, rfl⟩ := next?_eq_some hnext
  exact visible_advance ..

theorem defers_advance_of_next (hnext : p.next? = some s) :
    p.advance.defers = p.defersAt s ++ p.defers := by
  obtain ⟨head, before, rest, outer, rfl⟩ := next?_eq_some hnext
  exact defers_advance ..

namespace In

variable {body : Block} {sc : OpenScope}

/-- Within a scope, a point can stand anywhere. -/
theorem move {head : ScopeHead} {before rest before' rest' : List Stmt} {outer : Point}
    (h : In body (⟨head, before, rest⟩ :: outer)) (hsame : before' ++ rest' = before ++ rest) :
    In body (⟨head, before', rest'⟩ :: outer) := by
  cases h with
  | body hstmts => exact .body (hsame.trans hstmts)
  | inner hhere hnext hblock hstmts => exact .inner hhere hnext hblock (hsame.trans hstmts)

theorem advance (h : here.In body) (hnext : here.next? = some s) : here.advance.In body := by
  obtain ⟨head, before, rest, outer, rfl⟩ := next?_eq_some hnext
  exact h.move (append_assoc _ _ _)

theorem enter (h : here.In body) (hnext : here.next? = some s)
    (hblock : (kind, loopVar, b) ∈ s.blocks) : (here.enter kind loopVar b).In body :=
  .inner h hnext hblock (nil_append _)

/-- Around the innermost scope is nothing, or a point in front of the statement with its
block. -/
theorem outer {outer : Point} (h : In body (sc :: outer)) :
    outer = [] ∨ outer.In body ∧ ∃ s, outer.next? = some s ∧
      (sc.head.kind, sc.head.loopVar, ⟨sc.head.block, sc.head.span, sc.before ++ sc.rest⟩) ∈
        s.blocks := by
  cases h with
  | body _ => exact .inl rfl
  | @inner _ s kind loopVar b before rest hhere hnext hblock hstmts =>
    refine .inr ⟨hhere, s, hnext, ?_⟩
    rw [hstmts]
    exact hblock

/-- Behind the statement with a block no cleanup has run yet. -/
theorem cleanupRun_outer (h : In body (sc :: here)) : here.advance.cleanupRun = [] := by
  rcases h.outer with rfl | ⟨-, s, hnext, hblock⟩
  · rfl
  · exact cleanupRun_advance hnext (Stmt.isCleanup_of_blocks (ne_nil_of_mem hblock)).1

/-- Behind the statement with a block the same is visible as in front of it. -/
theorem visible_outer (h : In body (sc :: here)) : here.advance.visible = here.visible := by
  rcases h.outer with rfl | ⟨-, s, hnext, hblock⟩
  · rfl
  · have hs := (Stmt.isCleanup_of_blocks (ne_nil_of_mem hblock)).2.2
    rw [visible_advance_of_next hnext, hs]
    exact append_nil _

end In

section Points

variable {body : Block} {outer : Point}

theorem mem_pointsIn : q ∈ pointsIn here s ↔ ∃ e ∈ s.blocks, q ∈ pointsOf here e.1 e.2.1 e.2.2 := by
  match s with
  | .block _ | .ifElse _ _ _ none | .ifElse _ _ _ (some _) | .whileLoop _ _ _ | .forIn _ _ _ _ _
  | .varDecl _ | .assign _ _ _ | .call _ _ | .ret _ _ | .defer _ _ | .cleanup _ =>
    simp [pointsIn, Stmt.blocks]

theorem mem_pointsAmong {head : ScopeHead} {before after ss : List Stmt} :
    q ∈ pointsAmong outer head before after ss ↔ ∃ first s rest, first ++ s :: rest = ss ∧
      (q = ⟨head, before ++ first, s :: (rest ++ after)⟩ :: outer ∨
        q ∈ pointsIn (⟨head, before ++ first, s :: (rest ++ after)⟩ :: outer) s) := by
  induction ss generalizing before with
  | nil => simp [pointsAmong]
  | cons s ss ih =>
    rw [pointsAmong, mem_cons, mem_append, ih]
    constructor
    · rintro (hq | hq | ⟨first, s', rest, rfl, hq⟩)
      · exact ⟨[], s, ss, rfl, .inl (by simpa using hq)⟩
      · exact ⟨[], s, ss, rfl, .inr (by simpa using hq)⟩
      · exact ⟨s :: first, s', rest, rfl, by simpa using hq⟩
    · rintro ⟨first, s', rest, hss, hq⟩
      cases first with
      | nil =>
        obtain ⟨rfl, rfl⟩ := List.cons.inj hss
        exact hq.imp (by simp) fun hq => .inl (by simpa using hq)
      | cons _ first =>
        obtain ⟨rfl, rfl⟩ := List.cons.inj hss
        exact .inr (.inr ⟨first, s', rest, rfl, by simpa using hq⟩)

/-- A point of a block stands directly in the block, or in a block of one of its statements. -/
theorem mem_pointsOf :
    q ∈ pointsOf outer kind loopVar b ↔ ∃ before rest, before ++ rest = b.stmts ∧
      (q = ⟨⟨b.id, b.span, kind, loopVar⟩, before, rest⟩ :: outer ∨
        ∃ s ∈ rest.head?, ∃ e ∈ s.blocks, q ∈ pointsOf
          (⟨⟨b.id, b.span, kind, loopVar⟩, before, rest⟩ :: outer) e.1 e.2.1 e.2.2) := by
  obtain ⟨id, span, stmts⟩ := b
  rw [pointsOf, mem_append, mem_pointsAmong, mem_singleton]
  constructor
  · rintro (⟨before, s, rest, hstmts, hq⟩ | rfl)
    · rw [nil_append, append_nil, mem_pointsIn] at hq
      exact ⟨before, s :: rest, hstmts, hq.imp_right fun hq => ⟨s, rfl, hq⟩⟩
    · exact ⟨stmts, [], append_nil _, .inl rfl⟩
  · rintro ⟨before, rest, hstmts, hq⟩
    cases rest with
    | nil =>
      rw [append_nil] at hstmts
      exact .inr (by simpa [hstmts] using hq)
    | cons s rest =>
      refine .inl ⟨before, s, rest, hstmts, ?_⟩
      rw [nil_append, append_nil, mem_pointsIn]
      simpa using hq

theorem sizeOf_lt_of_mem_blocks {e : ScopeKind × Option LocalVar × Block} (he : e ∈ s.blocks) :
    sizeOf e.2.2 < sizeOf s := by
  match s with
  | .ifElse _ _ _ (some _) =>
    rw [Stmt.ifElse.sizeOf_spec, Option.some.sizeOf_spec]
    rcases mem_pair.1 he with rfl | rfl
    all_goals
      dsimp only
      omega
  | .block _ | .ifElse _ _ _ none | .whileLoop _ _ _ | .forIn _ _ _ _ _ =>
    obtain rfl := mem_singleton.1 he
    simp only [Stmt.block.sizeOf_spec, Stmt.ifElse.sizeOf_spec, Stmt.whileLoop.sizeOf_spec,
      Stmt.forIn.sizeOf_spec]
    omega

/-- Induction on the nesting of blocks. -/
theorem nested_induction {motive : Block → Prop}
    (h : ∀ b : Block, (∀ s ∈ b.stmts, ∀ e ∈ s.blocks, motive e.2.2) → motive b) (b : Block) :
    motive b :=
  h b fun s hs e he =>
    have hlt : sizeOf e.2.2 < sizeOf b := by
      have hstmt := Nat.lt_trans (sizeOf_lt_of_mem_blocks he) (sizeOf_lt_of_mem hs)
      obtain ⟨id, span, stmts⟩ := b
      have hself : sizeOf stmts < sizeOf (⟨id, span, stmts⟩ : Block) := by
        rw [BlockOf.mk.sizeOf_spec]
        omega
      exact Nat.lt_trans hstmt hself
    nested_induction h e.2.2
termination_by sizeOf b
decreasing_by exact hlt

theorem in_of_mem_pointsOf (hb : ∀ before rest, before ++ rest = b.stmts →
      In body (⟨⟨b.id, b.span, kind, loopVar⟩, before, rest⟩ :: outer))
    (hq : q ∈ pointsOf outer kind loopVar b) : q.In body := by
  induction b using nested_induction generalizing outer kind loopVar with
  | h b ih =>
    obtain ⟨before, rest, hstmts, rfl | ⟨s, hs, e, he, hq⟩⟩ := mem_pointsOf.1 hq
    · exact hb before rest hstmts
    · have hmem : s ∈ b.stmts := hstmts ▸ mem_append_right _ (mem_of_mem_head? hs)
      exact ih s hmem e he (fun _ _ => .inner (hb _ _ hstmts) hs he) hq

/-- The points of a block behind a point of `b` are points of `b`. -/
theorem pointsOf_trans {r : Point} (hq : q ∈ pointsOf outer kind loopVar b)
    (hnext : q.next? = some s) {e : ScopeKind × Option LocalVar × Block} (he : e ∈ s.blocks)
    (hr : r ∈ pointsOf q e.1 e.2.1 e.2.2) : r ∈ pointsOf outer kind loopVar b := by
  induction b using nested_induction generalizing outer kind loopVar with
  | h b ih =>
    obtain ⟨before, rest, hstmts, hq⟩ := mem_pointsOf.1 hq
    refine mem_pointsOf.2 ⟨before, rest, hstmts, .inr ?_⟩
    rcases hq with rfl | ⟨s', hs', e', he', hq⟩
    · exact ⟨s, hnext, e, he, hr⟩
    · have hmem : s' ∈ b.stmts := hstmts ▸ mem_append_right _ (mem_of_mem_head? hs')
      exact ⟨s', hs', e', he', ih s' hmem e' he' hq⟩

theorem mem_points_iff : p ∈ body.points ↔ p.In body := by
  constructor
  · intro hp
    exact in_of_mem_pointsOf (fun _ _ => .body) hp
  · intro hp
    induction hp with
    | body hstmts => exact mem_pointsOf.2 ⟨_, _, hstmts, .inl rfl⟩
    | inner _ hnext hblock hstmts ih =>
      exact pointsOf_trans ih hnext hblock (mem_pointsOf.2 ⟨_, _, hstmts, .inl rfl⟩)

/-- The numbers at a point: those of the statement behind it, or that of the block that ends. -/
def ids (p : Point) : List NodeId :=
  match p.next? with
  | some s => s.ownIds
  | none => p.head?.toList.map (·.head.block)

theorem ids_eq (h : p.next? = some s) : p.ids = s.ownIds := by
  rw [ids, h]

mutual

/-- The numbers in a statement are those at the points in it. -/
theorem perm_ids_stmt (s : Stmt) {here : Point} (hnext : here.next? = some s) :
    ((here :: pointsIn here s).flatMap ids).Perm s.ids := by
  rw [flatMap_cons, ids_eq hnext]
  match s with
  | .varDecl _ | .assign _ _ _ | .call _ _ | .ret _ _ | .defer _ _ | .cleanup _ =>
    exact List.Perm.of_eq (append_nil _)
  | .block body => exact perm_ids_block body
  | .ifElse _ cond thenBody none => exact (perm_ids_block thenBody).append_left cond.ids
  | .ifElse _ cond thenBody (some elseBody) =>
    rw [pointsIn, flatMap_append]
    exact ((perm_ids_block thenBody).append (perm_ids_block elseBody)).append_left cond.ids
  | .whileLoop _ cond body => exact (perm_ids_block body).append_left cond.ids
  | .forIn id _ _ iter body => exact (perm_ids_block body).append_left (id :: iter.ids)

theorem perm_ids_block (b : BlockOf Stmt) {outer : Point} {kind : ScopeKind}
    {loopVar : Option LocalVar} :
    ((pointsOf outer kind loopVar b).flatMap ids).Perm (idsOfBlock b) := by
  match b with
  | ⟨id, span, stmts⟩ =>
    -- the number of the block stands at its end
    rw [pointsOf, flatMap_append, idsOfBlock]
    exact perm_append_comm.trans ((perm_ids_stmts stmts).cons id)

theorem perm_ids_stmts (ss : List Stmt) {outer : Point} {head : ScopeHead}
    {before after : List Stmt} :
    ((pointsAmong outer head before after ss).flatMap ids).Perm (idsOfStmts ss) := by
  match ss with
  | [] => exact List.Perm.refl _
  | s :: ss =>
    rw [pointsAmong, idsOfStmts, ← cons_append, flatMap_append]
    exact (perm_ids_stmt s rfl).append (perm_ids_stmts ss)

end

end Points

section Decls

/-- What a statement declares in its own scope is declared in it. -/
theorem filterMap_declared_subset (ss : List Stmt) :
    ∀ x ∈ ss.filterMap Stmt.declared?, x ∈ declsOfStmts ss := by
  intro x hx
  obtain ⟨s, hs, hdeclared⟩ := mem_filterMap.1 hx
  obtain ⟨before, after, rfl⟩ := append_of_mem hs
  rw [declsOfStmts_append, declsOfStmts, mem_append, mem_append]
  exact .inr (.inl (s.declared_subset_decls x hdeclared))

/-- Whether what ends at a point is missing among variables. -/
def Hides (q : Point) (xs : List LocalVar) : Prop :=
  q.next? = none → ∀ x ∈ q.own, x ∉ xs

/-- The points of a piece of program that declares `decls`.  In front of it `outer` is visible, and
behind it `behind`.  What a block in it declares is not visible behind the end of the block. -/
structure Enclosed (outer decls behind : List LocalVar) (points : List Point) : Prop where
  behind_sublist : behind.Sublist (outer ++ decls)
  visible : ∀ q ∈ points, ∀ x ∈ q.visible, x ∈ outer ++ decls
  own : ∀ q ∈ points, q.next? = none → ∀ x ∈ q.own, x ∈ decls
  closed : (outer ++ decls).Nodup →
    points.Pairwise (fun q q' => q.Hides q'.visible) ∧ ∀ q ∈ points, q.Hides behind

namespace Enclosed

variable {outer decls decls' behind behind' : List LocalVar} {points points' : List Point}

theorem nil (outer : List LocalVar) : Enclosed outer [] outer [] :=
  ⟨by simp, forall_mem_nil _, forall_mem_nil _, fun _ => ⟨.nil, forall_mem_nil _⟩⟩

/-- A point in front of a statement. -/
theorem single (hnext : here.next? = some s)
    (h : behind.Sublist (here.visible ++ decls)) : Enclosed here.visible decls behind [here] := by
  have hsome {p : Prop} (hnone : here.next? = none) : p := by
    rw [hnext] at hnone
    contradiction
  refine ⟨h, ?_, ?_, fun _ => ⟨pairwise_singleton _ _, ?_⟩⟩
  · exact forall_mem_singleton.2 fun x hx => mem_append_left _ hx
  · exact forall_mem_singleton.2 hsome
  · exact forall_mem_singleton.2 hsome

/-- One piece of program behind the other. -/
theorem trans (h : Enclosed outer decls behind points)
    (h' : Enclosed behind decls' behind' points') :
    Enclosed outer (decls ++ decls') behind' (points ++ points') := by
  have hsub : (behind ++ decls').Sublist (outer ++ (decls ++ decls')) := by
    rw [← append_assoc]
    exact h.behind_sublist.append_right _
  refine ⟨h'.behind_sublist.trans hsub, forall_mem_append.2 ⟨fun q hq x hx => ?_, ?_⟩,
    forall_mem_append.2 ⟨?_, ?_⟩, fun hnodup => ?_⟩
  · rw [← append_assoc]
    exact mem_append_left _ (h.visible q hq x hx)
  · exact fun q hq x hx => hsub.subset (h'.visible q hq x hx)
  · exact fun q hq hend x hx => mem_append_left _ (h.own q hq hend x hx)
  · exact fun q hq hend x hx => mem_append_right _ (h'.own q hq hend x hx)
  · obtain ⟨hpairs', hhides'⟩ := h'.closed (hsub.nodup hnodup)
    rw [← append_assoc] at hnodup
    obtain ⟨hpairs, hhides⟩ := h.closed hnodup.of_append_left
    -- what ends in the first piece is not seen in the second one
    have hgone {q : Point} (hq : q ∈ points) : q.Hides (behind ++ decls') := by
      intro hend x hx hmem
      rcases mem_append.1 hmem with hmem | hmem
      · exact hhides q hq hend x hx hmem
      · exact disjoint_of_nodup_append hnodup
          (mem_append_right _ (h.own q hq hend x hx)) hmem
    refine ⟨pairwise_append.2 ⟨hpairs, hpairs', fun q hq q' hq' hend x hx hvisible => ?_⟩,
      forall_mem_append.2 ⟨fun q hq hend x hx hmem => ?_, hhides'⟩⟩
    · exact hgone hq hend x hx (h'.visible q' hq' x hvisible)
    · exact hgone hq hend x hx (h'.behind_sublist.subset hmem)

/-- At the end of a block its variables go out of sight. -/
theorem close {head : ScopeHead} {stmts : List Stmt}
    (h : Enclosed (here.visible ++ head.loopVar.toList) (declsOfStmts stmts)
      (Point.visible (⟨head, stmts, []⟩ :: here)) points) :
    Enclosed here.visible (head.loopVar.toList ++ declsOfStmts stmts) here.visible
      (points ++ [⟨head, stmts, []⟩ :: here]) := by
  obtain ⟨hsub, hvisible, hown, hclosed⟩ := h
  rw [append_assoc] at hsub hvisible hclosed
  have hend : ∀ x ∈ OpenScope.own ⟨head, stmts, []⟩,
      x ∈ head.loopVar.toList ++ declsOfStmts stmts :=
    forall_mem_append.2 ⟨fun x hx => mem_append_left _ hx, fun x hx =>
      mem_append_right _ (filterMap_declared_subset stmts x hx)⟩
  have hall : ∀ q ∈ points ++ [⟨head, stmts, []⟩ :: here], q.next? = none → ∀ x ∈ q.own,
      x ∈ head.loopVar.toList ++ declsOfStmts stmts :=
    forall_mem_append.2 ⟨fun q hq hnone x hx => mem_append_right _ (hown q hq hnone x hx),
      forall_mem_singleton.2 fun _ => hend⟩
  refine ⟨sublist_append_left _ _, forall_mem_append.2 ⟨hvisible,
    forall_mem_singleton.2 fun x hx => hsub.subset hx⟩, hall, fun hnodup => ⟨?_, ?_⟩⟩
  · obtain ⟨hpairs, hhides⟩ := hclosed hnodup
    exact pairwise_append.2 ⟨hpairs, pairwise_singleton _ _, fun q hq =>
      forall_mem_singleton.2 (hhides q hq)⟩
  · exact fun q hq hnone x hx hmem =>
      disjoint_of_nodup_append hnodup hmem (hall q hq hnone x hx)

end Enclosed

mutual

theorem enclosed_stmt (s : Stmt) {here : Point} (hnext : here.next? = some s) :
    Enclosed here.visible s.decls here.advance.visible (here :: pointsIn here s) := by
  rw [visible_advance_of_next hnext]
  -- behind the blocks of a statement the same is visible as in front of them
  have hblocks {decls : List LocalVar} {points : List Point} (hs : s.declared? = none)
      (h : Enclosed here.visible decls here.visible points) :
      Enclosed here.visible decls (here.visible ++ s.declared?.toList) (here :: points) := by
    rw [hs, Option.toList_none, append_nil]
    have hfirst : Enclosed here.visible [] here.visible [here] := .single hnext (by simp)
    exact hfirst.trans h
  match s with
  | .varDecl _ | .assign _ _ _ | .call _ _ | .ret _ _ | .defer _ _ | .cleanup _ =>
    exact .single hnext (List.Sublist.refl _)
  | .block body => exact hblocks rfl (enclosed_block body)
  | .ifElse _ _ thenBody none => exact hblocks rfl (enclosed_block thenBody)
  | .ifElse _ _ thenBody (some elseBody) =>
    exact hblocks rfl ((enclosed_block thenBody).trans (enclosed_block elseBody))
  | .whileLoop _ _ body | .forIn _ _ _ _ body => exact hblocks rfl (enclosed_block body)

theorem enclosed_block (b : BlockOf Stmt) {outer : Point} {kind : ScopeKind}
    {loopVar : Option LocalVar} :
    Enclosed outer.visible (declsOfBlock loopVar b) outer.visible
      (pointsOf outer kind loopVar b) := by
  match b with
  | ⟨id, span, stmts⟩ =>
    have h : Enclosed _ _ _ (pointsAmong outer ⟨id, span, kind, loopVar⟩ [] [] stmts) :=
      enclosed_stmts stmts
    rw [visible, OpenScope.own, filterMap_nil, append_nil] at h
    exact h.close

theorem enclosed_stmts (ss : List Stmt) {outer : Point} {head : ScopeHead}
    {before after : List Stmt} :
    Enclosed (visible (⟨head, before, ss ++ after⟩ :: outer)) (declsOfStmts ss)
      (visible (⟨head, before ++ ss, after⟩ :: outer))
      (pointsAmong outer head before after ss) := by
  match ss with
  | [] =>
    rw [append_nil]
    exact .nil _
  | s :: ss =>
    have hrest : Enclosed _ _ _ (pointsAmong outer head (before ++ [s]) after ss) :=
      enclosed_stmts ss
    rw [append_assoc] at hrest
    exact (enclosed_stmt s rfl).trans hrest

end

theorem enclosed_bodies (bodies : List Block) :
    Enclosed [] (bodies.flatMap (declsOfBlock none)) [] (bodies.flatMap Block.points) := by
  induction bodies with
  | nil => exact .nil _
  | cons body bodies ih =>
    have hbody : Enclosed [] (declsOfBlock none body) [] body.points :=
      @enclosed_block body [] .body none
    rw [flatMap_cons, flatMap_cons]
    exact hbody.trans ih

end Decls

section Defers

mutual

/-- The `defer`s that count behind a statement stand at points in it, the latest first. -/
theorem defersAt_sublist {here : Point} (s : Stmt) :
    (defersAt here s).reverse.Sublist (here :: pointsIn here s) := by
  match s with
  | .defer _ _ => exact List.Sublist.refl _
  | .block b => exact (defersInBlock_sublist b).cons here
  | .varDecl _ | .assign _ _ _ | .call _ _ | .ifElse _ _ _ _ | .whileLoop _ _ _
  | .forIn _ _ _ _ _ | .ret _ _ | .cleanup _ => exact nil_sublist _

theorem defersInBlock_sublist {here : Point} (b : BlockOf Stmt) :
    (defersInBlock here b).reverse.Sublist (pointsOf here .block none b) := by
  match b with
  | ⟨_, _, stmts⟩ => exact (defersAmong_sublist stmts).trans (sublist_append_left _ _)

theorem defersAmong_sublist {outer : Point} {head : ScopeHead} {before after : List Stmt}
    (ss : List Stmt) : (defersAmong outer head before after ss).reverse.Sublist
      (pointsAmong outer head before after ss) := by
  match ss with
  | [] => exact List.Sublist.refl _
  | s :: ss =>
    rw [defersAmong, reverse_append, pointsAmong, ← cons_append]
    exact (defersAt_sublist s).append (defersAmong_sublist ss)

end

/-- At a `defer` in a statement only variables of the statement are visible in addition. -/
theorem visible_of_mem_defersAt (hnext : here.next? = some s) (hp : p ∈ defersAt here s)
    {x : LocalVar} (hx : x ∈ p.visible) : x ∈ here.visible ++ s.decls :=
  (enclosed_stmt s hnext).visible p ((defersAt_sublist s).subset (mem_reverse.2 hp)) x hx

end Defers

section Ids

/-- The numbers of what stands before a point, in the open scopes. -/
def passed : Point → List NodeId
  | [] => []
  | sc :: outer =>
    passed outer ++ (sc.head.loopVar.toList.map LocalVar.decl ++
      sc.head.block :: idsOfStmts sc.before)

theorem ids_blocks_sublist (hblock : (kind, loopVar, b) ∈ s.blocks) :
    (loopVar.toList.map LocalVar.decl ++ idsOfBlock b).Sublist s.ids := by
  match s with
  | .block _ | .ifElse _ _ _ none | .whileLoop _ _ _ =>
    obtain ⟨rfl, rfl, rfl⟩ : kind = _ ∧ loopVar = _ ∧ b = _ := by
      simpa [Stmt.blocks] using hblock
    simp [Stmt.ids]
  | .forIn _ _ _ iter _ =>
    obtain ⟨rfl, rfl, rfl⟩ : kind = _ ∧ loopVar = _ ∧ b = _ := by
      simpa [Stmt.blocks] using hblock
    exact (sublist_append_right iter.ids _).cons_cons _
  | .ifElse _ cond thenBody (some elseBody) =>
    have hboth := sublist_append_right cond.ids (idsOfBlock thenBody ++ idsOfBlock elseBody)
    rcases mem_pair.1 hblock with h | h
    · obtain ⟨rfl, rfl, rfl⟩ := Prod.mk.injEq _ _ _ _ ▸ h
      exact (sublist_append_left _ _).trans hboth
    · obtain ⟨rfl, rfl, rfl⟩ := Prod.mk.injEq _ _ _ _ ▸ h
      exact (sublist_append_right _ _).trans hboth

theorem ids_eq_cons (b : Block) : idsOfBlock b = b.id :: idsOfStmts b.stmts := by
  cases b
  rfl

variable {body : Block}

/-- What was passed and what comes next are numbered in the order of the body. -/
theorem In.passed_sublist (h : p.In body) :
    (p.passed ++ idsOfStmts p.rest).Sublist (idsOfBlock body) := by
  induction h with
  | body hstmts =>
    rw [ids_eq_cons, ← hstmts, idsOfStmts_append]
    exact List.Sublist.refl _
  | @inner here s kind loopVar b before rest hhere hnext hblock hstmts ih =>
    have hb : (loopVar.toList.map LocalVar.decl ++ b.id :: idsOfStmts before ++
        idsOfStmts rest).Sublist s.ids := by
      have hsub := ids_blocks_sublist hblock
      rw [ids_eq_cons, ← hstmts, idsOfStmts_append] at hsub
      simpa using hsub
    rw [rest_eq_of_next? hnext, idsOfStmts] at ih
    -- the block is in the next statement, which comes behind what was passed outside
    refine List.Sublist.trans ?_ ih
    rw [passed, append_assoc]
    exact (List.Sublist.refl _).append (hb.trans (sublist_append_left _ _))

theorem declared_sublist_ids (stmts : List Stmt) :
    ((stmts.filterMap Stmt.declared?).map LocalVar.decl).Sublist (idsOfStmts stmts) := by
  induction stmts with
  | nil => exact List.Sublist.refl _
  | cons s ss ih =>
    rw [filterMap_cons, idsOfStmts]
    cases s with
    | varDecl d => exact (ih.trans (sublist_append_right _ _)).cons_cons d.id
    | _ => exact ih.trans (sublist_append_right _ _)

theorem visible_sublist_passed (p : Point) : (p.visible.map LocalVar.decl).Sublist p.passed := by
  induction p with
  | nil => exact List.Sublist.refl _
  | cons sc outer ih =>
    have hown := declared_sublist_ids sc.before
    rw [visible, passed, OpenScope.own, map_append, map_append]
    exact ih.append ((List.Sublist.refl _).append (hown.cons _))

/-- The blocks that are open at a point, innermost first. -/
def blocks (p : Point) : List NodeId :=
  p.map fun sc => sc.head.block

theorem blocks_advance (p : Point) : p.advance.blocks = p.blocks := by
  match p with
  | [] | ⟨head, before, []⟩ :: outer | ⟨head, before, s :: rest⟩ :: outer => rfl

theorem blocks_sublist_passed (p : Point) : p.blocks.reverse.Sublist p.passed := by
  induction p with
  | nil => exact List.Sublist.refl _
  | cons sc outer ih =>
    have hhead : [sc.head.block].Sublist (sc.head.loopVar.toList.map LocalVar.decl ++
        sc.head.block :: idsOfStmts sc.before) := by
      simp
    rw [blocks, map_cons, reverse_cons, passed]
    exact ih.append hhead

/-- The block in whose scope a visible variable is declared. -/
def scopeOf? (d : NodeId) : Point → Option NodeId
  | [] => none
  | sc :: outer =>
    if d ∈ sc.own.map LocalVar.decl then some sc.head.block else scopeOf? d outer

variable {d : NodeId}

theorem scopeOf?_eq_none_iff : p.scopeOf? d = none ↔ d ∉ p.visible.map LocalVar.decl := by
  induction p with
  | nil => simp [scopeOf?, visible]
  | cons sc outer ih =>
    rw [scopeOf?, visible, map_append, mem_append]
    by_cases hown : d ∈ sc.own.map LocalVar.decl
    · simp [hown]
    · rw [if_neg hown, ih]
      simp only [hown, or_false]

theorem mem_blocks_of_scopeOf? {block : NodeId} (h : p.scopeOf? d = some block) :
    block ∈ p.blocks := by
  induction p with
  | nil => contradiction
  | cons sc outer ih =>
    rw [scopeOf?] at h
    rw [blocks, map_cons, mem_cons]
    split at h
    · exact .inl (Option.some.inj h).symm
    · exact .inr (ih h)

variable (hids : (idsOfBlock body).Nodup)

include hids

theorem In.nodup_passed (h : p.In body) : (p.passed ++ idsOfStmts p.rest).Nodup :=
  h.passed_sublist.nodup hids

/-- No two visible variables have the same number. -/
theorem In.nodup_visible (h : p.In body) : (p.visible.map LocalVar.decl).Nodup :=
  p.visible_sublist_passed.nodup (h.nodup_passed hids).of_append_left

/-- No two open blocks have the same number. -/
theorem In.nodup_blocks (h : p.In body) : p.blocks.Nodup :=
  nodup_reverse.1 (p.blocks_sublist_passed.nodup (h.nodup_passed hids).of_append_left)

/-- No variable of the next statement is visible yet. -/
theorem In.not_visible_of_next (h : p.In body) (hnext : p.next? = some s)
    (hd : d ∈ s.ids) : d ∉ p.visible.map LocalVar.decl := by
  intro hvisible
  have hdisjoint := disjoint_of_nodup_append (h.nodup_passed hids)
  refine hdisjoint (p.visible_sublist_passed.subset hvisible) ?_
  rw [rest_eq_of_next? hnext, idsOfStmts]
  exact mem_append_left _ hd

variable {sc : OpenScope} {outer : Point}

/-- No variable of a scope is visible around it. -/
theorem In.not_visible_of_own (hin : In body (sc :: outer))
    (hd : d ∈ sc.own.map LocalVar.decl) : d ∉ outer.visible.map LocalVar.decl := by
  have hnodup := hin.nodup_visible hids
  rw [visible, map_append] at hnodup
  exact fun hvisible => disjoint_of_nodup_append hnodup hvisible hd

/-- The scope of a variable that is visible around a scope is another one. -/
theorem In.ne_of_scopeOf? (hin : In body (sc :: outer)) {block : NodeId}
    (hscope : outer.scopeOf? d = some block) : sc.head.block ≠ block := by
  rintro rfl
  have hnodup := hin.nodup_blocks hids
  rw [blocks, map_cons, nodup_cons] at hnodup
  exact hnodup.1 (mem_blocks_of_scopeOf? hscope)

end Ids

end Point

end DeferLang
