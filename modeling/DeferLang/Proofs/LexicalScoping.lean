import DeferLang.Proofs.Numbering
import DeferLang.Proofs.PointTables
import Mathlib.Data.List.Flatten
import Mathlib.Data.List.Perm.Subperm

/-!
# Lexical scoping

What the points of a program say about the tables holds of the tables of every
parsed program, also of one with errors: no node has two entries, so every name
that is read stands for what it stands for at its point (`Point.lookup?`), or is
reported.
-/

namespace DeferLang

open List

namespace Point

section Nodes

/-- The nodes that the tables have entries for because of a point: the variables that are read
behind it, and the block that ends there. -/
def marks (all : List LocalVar) (p : Point) : List NodeId :=
  p.vars.map Prod.fst ++ (p.closing? all).toList.map Prod.fst

theorem marks_eq {p : Point} {s : Stmt} (all : List LocalVar) (h : p.next? = some s) :
    p.marks all = s.vars.map Prod.fst := by
  rw [marks, closing?_eq_none all h, vars_eq h]
  exact append_nil _

theorem sublist_ownIds (s : Stmt) : (s.vars.map Prod.fst).Sublist s.ownIds := by
  cases s with
  | varDecl d => exact (vars_sublist_ids d.init.toList).cons d.id
  | assign _ left value =>
    rw [Stmt.vars, map_append]
    exact left.vars_sublist_ids.append value.vars_sublist_ids
  | call _ call | defer _ call => exact (vars_sublist_ids call.args).cons call.id
  | ret _ value => exact vars_sublist_ids value.toList
  | cleanup _ => exact List.Sublist.refl _
  | block _ => exact List.Sublist.refl _
  | ifElse _ cond _ _ => exact cond.vars_sublist_ids
  | whileLoop _ cond _ => exact cond.vars_sublist_ids
  | forIn id _ _ iter _ => exact iter.vars_sublist_ids.cons id

/-- A point has entries for nodes at it. -/
theorem marks_sublist_ids (all : List LocalVar) (p : Point) : (p.marks all).Sublist p.ids := by
  match p with
  | [] => exact List.Sublist.refl _
  | ⟨_, _, []⟩ :: _ => exact List.Sublist.refl _
  | ⟨_, _, s :: _⟩ :: _ =>
    rw [marks_eq all rfl]
    exact sublist_ownIds s

end Nodes

end Point

/-- A variable expression stands for a variable. -/
def Context.Names (c : Context) (expr : NodeId) (x : LocalVar) : Prop :=
  ∃ symbol, c.resolve? expr = some symbol ∧ c.declSymbol? x.decl = some symbol

/-- The tables of a program, and the errors about undeclared variables, are those of lexical
scoping. -/
structure LexicallyScoped (p : Program) (ctx : Context) (errors : List TypingError) : Prop where
  /-- Every node of an expression has a type. -/
  typed : ∀ q ∈ p.points, ∀ id ∈ q.exprIds, (ctx.exprTypes.lookup id).isSome = true
  /-- Every declaration has a symbol. -/
  declared : ∀ x ∈ p.decls, (ctx.declSymbol? x.decl).isSome = true
  /-- No two declarations have the same symbol. -/
  distinct : ∀ x ∈ p.decls, ∀ y ∈ p.decls, ctx.declSymbol? x.decl = ctx.declSymbol? y.decl → x = y
  /-- At the end of every block the earliest variables of each name are recorded for it. -/
  locals : ∀ sc outer, sc :: outer ∈ p.points → sc.rest = [] →
    ∃ symbols, ctx.scopeLocals.lookup sc.head.block = some symbols ∧
      symbols.map some = (earliest sc.own).map (ctx.declSymbol? ·.decl)
  /-- A variable that is read stands for what its name stands for there. -/
  resolved : ∀ q ∈ p.points, ∀ v ∈ q.vars, ∀ x, q.lookup? v.2.name = some x → ctx.Names v.1 x
  /-- A variable whose name stands for nothing is reported. -/
  unresolved : ∀ q ∈ p.points, ∀ v ∈ q.vars, q.lookup? v.2.name = none ↔
    ctx.resolve? v.1 = none ∧ undeclaredError v ∈ errors
  /-- Nothing else is reported as undeclared. -/
  undeclared_eq : undeclaredIn errors = p.points.flatMap Point.undeclared
  covers : ctx.covers p = true

section Program

variable {p : Program} {q : Point} {v : NodeId × Ident}

theorem nodup_marks (hids : p.ids.Nodup) : (p.points.flatMap (Point.marks p.decls)).Nodup := by
  have hsubperm (bodies : List Block) :
      ((bodies.flatMap Block.points).flatMap (Point.marks p.decls)).Subperm
        (bodies.flatMap idsOfBlock) := by
    induction bodies with
    | nil => exact List.Subperm.refl _
    | cons body bodies ih =>
      rw [flatMap_cons, flatMap_append, flatMap_cons]
      exact ((List.Sublist.flatMap_right _ fun q _ => q.marks_sublist_ids p.decls).subperm.trans
        (Point.perm_ids_block body).subperm).append ih
  obtain ⟨ids, hperm, hsub⟩ := hsubperm p.bodies
  exact hperm.nodup (hsub.nodup ((ids_bodies_sublist p).nodup hids))

theorem mem_decls_of_mem_points (hq : q ∈ p.points) {sc : OpenScope} (hsc : sc ∈ q) {x : LocalVar}
    (hx : x ∈ sc.own) : x ∈ p.decls :=
  (Point.enclosed_bodies p.bodies).visible q hq x (Point.mem_visible_of_own hsc hx)

theorem declSymbol_of_mem_decls (hids : p.ids.Nodup) {x : LocalVar} (hx : x ∈ p.decls) :
    p.check.1.declSymbol? x.decl = some (p.decls.idxOf x) :=
  declSymbol_check hids (List.getElem?_idxOf hx)

/-- The blocks of a program list the earliest variables of each name. -/
theorem scopeLocals_check (hids : p.ids.Nodup) {sc : OpenScope} {outer : Point}
    (hq : sc :: outer ∈ p.points) (hend : sc.rest = []) :
    p.check.1.scopeLocals.lookup sc.head.block = some ((earliest sc.own).map p.decls.idxOf) := by
  have htable := (Check.leads_program hids rfl).1.scopeLocals_eq.trans (append_nil _)
  rw [map_fst_introduced_bodies] at htable
  have hclosing : Point.closing? p.decls (sc :: outer) =
      some (sc.head.block, (earliest sc.own).map p.decls.idxOf) := by
    obtain ⟨head, before, rest⟩ := sc
    obtain rfl : rest = [] := hend
    rfl
  have hsub : ((p.points.filterMap (Point.closing? p.decls)).map Prod.fst).Sublist
      (p.points.flatMap (Point.marks p.decls)) := by
    induction p.points with
    | nil => exact List.Sublist.refl _
    | cons q points ih =>
      rw [← singleton_append, filterMap_append, map_append, flatMap_append,
        flatMap_singleton, filterMap_eq_flatMap_toList, flatMap_singleton]
      exact (sublist_append_right _ _).append ih
  refine (congrArg (List.lookup _) htable).trans (lookup_of_mem_of_nodup ?_ ?_)
  · exact mem_reverse.2 (mem_filterMap.2 ⟨_, hq, hclosing⟩)
  · rw [map_reverse, nodup_reverse]
    exact hsub.nodup (nodup_marks hids)

theorem resolutions_check (hids : p.ids.Nodup) :
    p.check.1.resolutions = (p.points.flatMap (Point.answers p.decls)).reverse := by
  have htable := (Check.leads_program hids rfl).1.resolutions_eq.trans (append_nil _)
  rwa [map_fst_introduced_bodies] at htable

/-- A variable expression gets the symbol of what its name stands for. -/
theorem resolve?_check (hids : p.ids.Nodup) (hq : q ∈ p.points) (hv : v ∈ q.vars) :
    p.check.1.resolve? v.1 = (q.lookup? v.2.name).map p.decls.idxOf := by
  have hnodup := nodup_resolutions hids
  rw [Context.resolve?]
  cases hlookup : q.lookup? v.2.name with
  | some x =>
    refine lookup_of_mem_of_nodup ?_ hnodup
    rw [resolutions_check hids, mem_reverse, mem_flatMap]
    exact ⟨q, hq, mem_filterMap.2 ⟨v, hv, by rw [hlookup]; rfl⟩⟩
  | none =>
    rw [Option.map_none, lookup_eq_none_iff]
    intro entry hentry
    rw [resolutions_check hids, mem_reverse, mem_flatMap] at hentry
    obtain ⟨q', hq', hentry⟩ := hentry
    obtain ⟨v', hv', hanswer⟩ := mem_filterMap.1 hentry
    obtain ⟨x, hx, rfl⟩ := Option.map_eq_some_iff.1 hanswer
    -- an entry for the same node comes from the same point, where the name stands for nothing
    by_contra hsame
    have hsame : v.1 = v'.1 := by simpa using hsame
    have hmark {q : Point} {v : NodeId × Ident} (hv : v ∈ q.vars) : v.1 ∈ q.marks p.decls :=
      mem_append_left _ (mem_map_of_mem hv)
    have hmarks := nodup_marks hids
    obtain rfl : q' = q := eq_of_nodup_flatMap hmarks hq' hq (hmark hv') (hsame ▸ hmark hv)
    have hvars : (q'.vars.map Prod.fst).Nodup :=
      ((nodup_flatMap.1 hmarks).1 q' hq).of_append_left
    obtain rfl := inj_on_of_nodup_map hvars hv hv' hsame
    rw [hlookup] at hx
    contradiction

/-- What is reported as undeclared, in order. -/
theorem undeclaredIn_check (hids : p.ids.Nodup) :
    undeclaredIn p.check.2 = p.points.flatMap Point.undeclared :=
  (Check.leads_program hids rfl).1.undeclared_eq

theorem undeclaredError_mem_check (hids : p.ids.Nodup) (hq : q ∈ p.points) (hv : v ∈ q.vars)
    (h : q.lookup? v.2.name = none) : undeclaredError v ∈ p.check.2 := by
  have hmem : undeclaredError v ∈ undeclaredIn p.check.2 := by
    rw [undeclaredIn_check hids, mem_flatMap]
    exact ⟨q, hq, mem_map_of_mem (mem_filter.2 ⟨hv, by rw [h]; rfl⟩)⟩
  exact (mem_filter.1 hmem).1

theorem isSome_exprTypes_check (hids : p.ids.Nodup) (hq : q ∈ p.points) {id : NodeId}
    (hid : id ∈ q.exprIds) : (p.check.1.exprTypes.lookup id).isSome = true := by
  obtain ⟨entry, hentry, rfl⟩ := mem_map.1 ((Check.leads_program hids rfl).1.typed q hq id hid)
  exact lookup_isSome_iff.2 ⟨entry, hentry, beq_self_eq_true _⟩

/-- Every variable that a program reads stands for a variable of its name that is visible where
it is read, or is reported.  The program may have cleanup in it that was not checked. -/
theorem names_check (hids : p.ids.Nodup) {bodies : List Block}
    (hbare : bodies.map bareBlock = p.bodies.map bareBlock) {body : Block} (hbody : body ∈ bodies)
    (hq : q ∈ body.points) (hv : v ∈ q.vars) :
    (∃ x ∈ q.visible, x.name = v.2.name ∧ p.check.1.Names v.1 x) ∨
      ⟨.undeclared v.2.name, v.2.span⟩ ∈ p.check.2 := by
  obtain ⟨htells, hat⟩ := Check.leads_program hids hbare
  have hpoint : q ∈ bodies.flatMap Block.points := mem_flatMap.2 ⟨body, hbody, hq⟩
  cases hlookup : q.lookup? v.2.name with
  | none =>
    right
    have hmem : undeclaredError v ∈ undeclaredIn p.check.2 := by
      refine htells.undeclared_eq ▸ mem_append_right _ (mem_flatMap.2 ⟨q, hpoint, ?_⟩)
      exact mem_map_of_mem (mem_filter.2 ⟨hv, by rw [hlookup]; rfl⟩)
    exact (mem_filter.1 hmem).1
  | some x =>
    obtain ⟨hx, hname⟩ := Point.visible_of_lookup? hlookup
    have hdecls := (Check.walks_program p).declared_eq
    have hall : (introduced (bodies.flatMap Block.points)).map Prod.fst = p.decls := by
      rw [← nil_append (bodies.flatMap Block.points), ← hat.flagged_eq, append_nil,
        Checker.map_fst_flagged, hdecls]
      rfl
    have hmem : x ∈ p.decls := by
      have h := hat.visible q (mem_cons_of_mem _ hpoint) x hx
      rwa [hdecls] at h
    refine .inl ⟨x, hx, hname, p.decls.idxOf x, lookup_of_mem_of_nodup ?_ (nodup_resolutions hids),
      declSymbol_check hids (List.getElem?_idxOf hmem)⟩
    have htable := htells.resolutions_eq.trans (append_nil _)
    rw [hall] at htable
    refine htable ▸ mem_reverse.2 (mem_flatMap.2 ⟨q, hpoint, ?_⟩)
    exact mem_filterMap.2 ⟨v, hv, by rw [hlookup]; rfl⟩

end Program

/-- Names of parsed programs are resolved by lexical scoping, also in programs with errors. -/
theorem lexicallyScoped_parseProgram (ts : List Token) :
    LexicallyScoped (parseProgram ts).1 (parseProgram ts).1.check.1
      (parseProgram ts).1.check.2 := by
  have hids := nodup_ids_parseProgram ts
  generalize (parseProgram ts).1 = p at hids ⊢
  constructor
  · exact fun q hq id hid => isSome_exprTypes_check hids hq hid
  · intro x hx
    rw [declSymbol_of_mem_decls hids hx, Option.isSome_some]
  · intro x hx y hy h
    rw [declSymbol_of_mem_decls hids hx, declSymbol_of_mem_decls hids hy, Option.some.injEq] at h
    exact (List.idxOf_inj hx).1 h
  · intro sc outer hq hend
    refine ⟨_, scopeLocals_check hids hq hend, ?_⟩
    rw [List.map_map]
    refine List.map_congr_left fun x hx => ?_
    have hdecls := mem_decls_of_mem_points hq List.mem_cons_self (mem_of_mem_earliest hx)
    exact (declSymbol_of_mem_decls hids hdecls).symm
  · intro q hq v hv x hx
    obtain ⟨sc, hsc, hown⟩ := Point.exists_of_lookup? hx
    refine ⟨p.decls.idxOf x, ?_, ?_⟩
    · rw [resolve?_check hids hq hv, hx, Option.map_some]
    · exact declSymbol_of_mem_decls hids (mem_decls_of_mem_points hq hsc hown)
  · intro q hq v hv
    rw [resolve?_check hids hq hv, Option.map_eq_none_iff]
    exact ⟨fun h => ⟨h, undeclaredError_mem_check hids hq hv h⟩, And.left⟩
  · exact undeclaredIn_check hids
  · exact covers_check hids

end DeferLang
