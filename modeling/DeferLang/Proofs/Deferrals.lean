import DeferLang.Proofs.Nesting
import Mathlib.Data.List.Pairwise
import Mathlib.Data.List.Perm.Subperm
import Mathlib.Data.List.Flatten

/-!
# The `defer`s that count at a point

A `defer` that counts at a point stands before it in one of the open scopes, in
plain blocks there at most (`Point.Below`).  Each of them counts once, and it is
known by its call: no two calls of a body have the same number.
-/

namespace DeferLang

open List

namespace Point

/-- The points in plain blocks of the statement behind a point, and the point itself. -/
inductive Below (here : Point) : Point → Prop where
  | here : Below here here
  | inner {p : Point} {b : Block} {before rest : List Stmt} (hp : Below here p)
      (hnext : p.next? = some (.block b)) (hstmts : before ++ rest = b.stmts) :
      Below here (⟨⟨b.id, b.span, .block, none⟩, before, rest⟩ :: p)

/-- The number of the call of the `defer` behind a point. -/
def deferId? (p : Point) : Option NodeId :=
  match p.next? with
  | some (.defer _ call) => some call.id
  | _ => none

section Members

mutual

theorem below_of_mem_defersAt {base here : Point} (hhere : Below base here) (s : Stmt)
    (hnext : here.next? = some s) {q : Point} (hq : q ∈ defersAt here s) :
    Below base q ∧ ∃ span call, q.next? = some (.defer span call) := by
  match s with
  | .defer span call =>
    obtain rfl := mem_singleton.1 hq
    exact ⟨hhere, span, call, hnext⟩
  | .block b => exact below_of_mem_defersInBlock hhere b hnext hq
  | .varDecl _ | .assign _ _ _ | .call _ _ | .ifElse _ _ _ _ | .whileLoop _ _ _ | .forIn _ _ _ _ _
  | .ret _ _ | .cleanup _ => contradiction

theorem below_of_mem_defersInBlock {base here : Point} (hhere : Below base here) (b : BlockOf Stmt)
    (hnext : here.next? = some (.block b)) {q : Point} (hq : q ∈ defersInBlock here b) :
    Below base q ∧ ∃ span call, q.next? = some (.defer span call) := by
  match b with
  | ⟨id, span, stmts⟩ =>
    refine below_of_mem_defersAmong stmts (fun before rest hsame => ?_) hq
    exact .inner hhere hnext (by simpa using hsame)

theorem below_of_mem_defersAmong {base outer : Point} {head : ScopeHead}
    {before after : List Stmt} (ss : List Stmt)
    (hss : ∀ before' rest, before' ++ rest = before ++ (ss ++ after) →
      Below base (⟨head, before', rest⟩ :: outer))
    {q : Point} (hq : q ∈ defersAmong outer head before after ss) :
    Below base q ∧ ∃ span call, q.next? = some (.defer span call) := by
  match ss with
  | [] => contradiction
  | s :: ss =>
    rw [defersAmong, mem_append] at hq
    rcases hq with hq | hq
    · exact below_of_mem_defersAmong ss (fun _ _ hsame => hss _ _ (by simpa using hsame)) hq
    · exact below_of_mem_defersAt (hss _ _ rfl) s rfl hq

end

theorem exists_of_mem_defersAmong {outer : Point} {head : ScopeHead}
    {before after ss : List Stmt} {q : Point} (hq : q ∈ defersAmong outer head before after ss) :
    ∃ earlier s later, ss = earlier ++ s :: later ∧
      q ∈ defersAt (⟨head, before ++ earlier, s :: (later ++ after)⟩ :: outer) s := by
  induction ss generalizing before with
  | nil => contradiction
  | cons s ss ih =>
    rw [defersAmong, mem_append] at hq
    rcases hq with hq | hq
    · obtain ⟨earlier, s', later, rfl, hfound⟩ := ih hq
      exact ⟨s :: earlier, s', later, rfl, by simpa using hfound⟩
    · exact ⟨[], s, ss, rfl, by simpa using hq⟩

/-- A `defer` that counts at a point stands in front of the point in an open scope, or below
there. -/
theorem exists_below_of_mem_defers {p q : Point} (hq : q ∈ p.defers) :
    ∃ front sc outer earlier s later, p = front ++ sc :: outer ∧
      sc.before = earlier ++ s :: later ∧ s.declared? = none ∧
      Below (⟨sc.head, earlier, s :: (later ++ sc.rest)⟩ :: outer) q ∧
      ∃ span call, q.next? = some (.defer span call) := by
  induction p with
  | nil => contradiction
  | cons sc outer ih =>
    rw [defers, mem_append] at hq
    rcases hq with hq | hq
    · obtain ⟨earlier, s, later, hbefore, hq⟩ := exists_of_mem_defersAmong hq
      have hplain : s.declared? = none := by
        cases s <;> first | rfl | contradiction
      exact ⟨[], sc, outer, earlier, s, later, rfl, hbefore, hplain,
        below_of_mem_defersAt .here s rfl hq⟩
    · obtain ⟨front, sc', outer', earlier, s, later, rfl, hbelow⟩ := ih hq
      exact ⟨sc :: front, sc', outer', earlier, s, later, rfl, hbelow⟩

end Members

namespace Below

variable {here p : Point}

theorem in_of_in {body : Block} (h : Below here p) (hhere : here.In body) : p.In body := by
  induction h with
  | here => exact hhere
  | inner _ hnext hstmts ih => exact .inner ih hnext mem_cons_self hstmts

/-- Between a point and one below it there are only plain blocks. -/
theorem exists_append (h : Below here p) :
    ∃ inner, p = inner ++ here ∧ ∀ sc ∈ inner, sc.head.kind = .block := by
  induction h with
  | here => exact ⟨[], rfl, by simp⟩
  | @inner p b before rest _ _ _ ih =>
    obtain ⟨inner, rfl, hinner⟩ := ih
    exact ⟨⟨⟨b.id, b.span, .block, none⟩, before, rest⟩ :: inner, rfl, by simpa using hinner⟩

/-- What is passed on the way down belongs to the statement behind the point. -/
theorem exists_passed {s : Stmt} (h : Below here p) (hnext : here.next? = some s) :
    (∃ more, p.passed = here.passed ++ more ∧ ∀ i ∈ more, i ∈ s.ids) ∧
      ∀ s', p.next? = some s' → ∀ i ∈ s'.ids, i ∈ s.ids := by
  induction h with
  | here =>
    refine ⟨⟨[], by simp, by simp⟩, fun s' hs' i hi => ?_⟩
    exact Option.some.inj (hnext.symm.trans hs') ▸ hi
  | @inner p b before rest _ hblock hstmts ih =>
    obtain ⟨⟨more, hmore, hsub⟩, hinside⟩ := ih
    -- the block is the next statement further outside, whose numbers are all in `s`
    have hb : ∀ i ∈ b.id :: (idsOfStmts before ++ idsOfStmts rest), i ∈ s.ids := by
      intro i hi
      refine hinside _ hblock i ?_
      rw [Stmt.ids, ids_eq_cons, ← hstmts, idsOfStmts_append]
      exact hi
    constructor
    · refine ⟨more ++ b.id :: idsOfStmts before, ?_, ?_⟩
      · rw [passed, hmore, append_assoc]
        rfl
      · intro i hi
        rcases mem_append.1 hi with hi | hi
        · exact hsub i hi
        · exact hb i (cons_subset_cons _ (subset_append_left _ _) hi)
    · intro s' hs' i hi
      refine hb i (mem_cons_of_mem _ (mem_append_right _ ?_))
      obtain ⟨head, _, rest', outer, heq⟩ := next?_eq_some hs'
      obtain rfl : rest = s' :: rest' := by simp at heq; exact heq.1.2.2
      exact mem_append_left _ hi

end Below

section Numbers

variable {p : Point}

theorem deferId?_eq_some {span : Span} {call : Call} (h : p.next? = some (.defer span call)) :
    p.deferId? = some call.id := by
  rw [deferId?, h]

theorem deferId?_sublist_ids (p : Point) : p.deferId?.toList.Sublist p.ids := by
  rw [deferId?, ids]
  cases p.next? with
  | none => exact nil_sublist _
  | some s =>
    cases s with
    | defer _ call => exact singleton_sublist.2 mem_cons_self
    | _ => exact nil_sublist _

/-- The calls of `defer`s have numbers of the points they stand at. -/
theorem deferIds_sublist (points : List Point) :
    (points.filterMap deferId?).Sublist (points.flatMap ids) := by
  rw [filterMap_eq_flatMap_toList]
  exact List.Sublist.flatMap_right _ fun p _ => p.deferId?_sublist_ids

theorem deferIds_subperm_passed (p : Point) :
    (p.defers.reverse.filterMap deferId?).Subperm p.passed := by
  induction p with
  | nil => exact List.Subperm.refl _
  | cons sc outer ih =>
    rw [defers, reverse_append, filterMap_append, passed]
    have hscope : ((defersAmong outer sc.head [] sc.rest sc.before).reverse.filterMap
        deferId?).Subperm (idsOfStmts sc.before) :=
      (((defersAmong_sublist sc.before).filterMap _).trans (deferIds_sublist _)).subperm.trans
        (perm_ids_stmts sc.before).subperm
    exact ih.append ((hscope.cons_right _).trans (sublist_append_right _ _).subperm)

variable {body : Block} (hids : (idsOfBlock body).Nodup)

include hids

/-- A `defer` of a body is known by its call. -/
theorem In.eq_of_deferId? {q : Point} (hp : p.In body) (hq : q.In body) {i : NodeId}
    (hi : p.deferId? = some i) (hj : q.deferId? = some i) : p = q := by
  have hnodup : (body.points.filterMap deferId?).Nodup :=
    (deferIds_sublist _).nodup ((perm_ids_block body).nodup_iff.2 hids)
  rw [List.Nodup, pairwise_filterMap] at hnodup
  by_contra hne
  -- pairs are listed in one order, but to differ has none
  have hsymm : Std.Symm fun a b : Point =>
      ∀ i, a.deferId? = some i → ∀ j, b.deferId? = some j → i ≠ j :=
    ⟨fun _ _ h i hi j hj e => h j hj i hi e.symm⟩
  have hdiffer := hnodup.forall (mem_points_iff.2 hp) (mem_points_iff.2 hq) hne
  exact hdiffer i hi i hj rfl

/-- A `defer` does not count in front of itself. -/
theorem In.not_mem_defers_self (hp : p.In body) : p ∉ p.defers := by
  intro hmem
  obtain ⟨_, _, _, _, _, _, _, _, _, _, span, call, hnext⟩ := exists_below_of_mem_defers hmem
  -- otherwise the number of its call would be both passed and still to come
  have hpassed : call.id ∈ p.passed := by
    refine p.deferIds_subperm_passed.subset ?_
    exact mem_filterMap.2 ⟨p, mem_reverse.2 hmem, deferId?_eq_some hnext⟩
  have hahead : call.id ∈ idsOfStmts p.rest := by
    rw [rest_eq_of_next? hnext, idsOfStmts]
    exact mem_append_left _ mem_cons_self
  exact disjoint_of_nodup_append (hp.nodup_passed hids) hpassed hahead

/-- No `defer` counts twice. -/
theorem In.nodup_defers (hp : p.In body) : p.defers.Nodup := by
  obtain ⟨ids, hperm, hsub⟩ := p.deferIds_subperm_passed
  have hnodup := hperm.nodup (hsub.nodup (hp.nodup_passed hids).of_append_left)
  rw [List.Nodup, pairwise_filterMap] at hnodup
  rw [← nodup_reverse]
  refine hnodup.imp_of_mem fun hq _ hdiffer heq => ?_
  obtain ⟨_, _, _, _, _, _, _, _, _, _, span, call, hnext⟩ :=
    exists_below_of_mem_defers (mem_reverse.1 hq)
  have hid := deferId?_eq_some hnext
  exact hdiffer _ hid _ (heq ▸ hid) rfl

end Numbers

section Scopes

variable {body : Block} {p q front : Point} {s : Stmt} {x : LocalVar}

theorem In.of_append (h : In body (front ++ q)) (hq : q ≠ []) : q.In body := by
  induction front with
  | nil => exact h
  | cons sc front ih =>
    rcases h.outer with hnil | ⟨hrest, -⟩
    · exact absurd (append_eq_nil_iff.1 hnil).2 hq
    · exact ih hrest

/-- A `defer` that counts at a point of a body is one of the body. -/
theorem In.of_mem_defers (hp : p.In body) (hq : q ∈ p.defers) : q.In body := by
  obtain ⟨front, sc, outer, earlier, s, later, rfl, hbefore, -, hbelow, -⟩ :=
    exists_below_of_mem_defers hq
  refine hbelow.in_of_in ((hp.of_append (cons_ne_nil _ _)).move ?_)
  rw [hbefore]
  simp

theorem visible_append (front q : Point) : visible (front ++ q) = q.visible ++ visible front := by
  induction front with
  | nil => simp [visible]
  | cons sc front ih => rw [cons_append, visible, ih, visible, append_assoc]

/-- The numbers passed further inside come behind those passed further outside. -/
theorem passed_append (front q : Point) : passed (front ++ q) = q.passed ++ passed front := by
  induction front with
  | nil => simp [passed]
  | cons sc front ih => rw [cons_append, passed, ih, passed, append_assoc]

theorem passed_of_before {sc : OpenScope} {outer : Point} {earlier later : List Stmt}
    (hbefore : sc.before = earlier ++ s :: later) (rest : List Stmt) :
    passed (sc :: outer) =
      passed (⟨sc.head, earlier, rest⟩ :: outer) ++ (s.ids ++ idsOfStmts later) := by
  rw [passed, passed, hbefore, idsOfStmts_append, idsOfStmts]
  simp

/-- What is passed in front of a `defer` is passed in front of a point where it counts. -/
theorem passed_subset_of_mem_defers (hq : q ∈ p.defers) : ∀ i ∈ q.passed, i ∈ p.passed := by
  obtain ⟨front, sc, outer, earlier, s, later, rfl, hbefore, -, hbelow, -⟩ :=
    exists_below_of_mem_defers hq
  obtain ⟨⟨more, hmore, hsub⟩, -⟩ := hbelow.exists_passed rfl
  intro i hi
  rw [passed_append, mem_append, passed_of_before hbefore (s :: (later ++ sc.rest)), mem_append]
  left
  rw [hmore, mem_append] at hi
  exact hi.imp_right fun hi => mem_append_left _ (hsub i hi)

/-- The scopes around a `defer` that counts at a point are open there, plain blocks apart. -/
theorem exists_head_of_mem_defers (hq : q ∈ p.defers) {sc : OpenScope} (hsc : sc ∈ q)
    (hkind : sc.head.kind ≠ .block) : ∃ sc' ∈ p, sc'.head = sc.head := by
  obtain ⟨front, sc', outer, earlier, s, later, rfl, -, -, hbelow, -⟩ :=
    exists_below_of_mem_defers hq
  obtain ⟨inner, rfl, hinner⟩ := hbelow.exists_append
  rcases mem_append.1 hsc with hsc | hsc
  · exact absurd (hinner sc hsc) hkind
  · rcases mem_cons.1 hsc with rfl | hsc
    · exact ⟨sc', by simp, rfl⟩
    · exact ⟨sc, by simp [hsc], rfl⟩

/-- The plain blocks between a point and one below it belong to the statement behind the point. -/
theorem Below.blocks_subset {here inner : Point} (h : Below here (inner ++ here))
    (hnext : here.next? = some s) : ∀ i ∈ inner.blocks, i ∈ s.ids := by
  obtain ⟨⟨more, hmore, hsub⟩, -⟩ := h.exists_passed hnext
  rw [passed_append, append_cancel_left_eq] at hmore
  intro i hi
  refine hsub i (hmore ▸ ?_)
  exact inner.blocks_sublist_passed.subset (mem_reverse.2 hi)

variable (hids : (idsOfBlock body).Nodup)

include hids

/-- A variable that was declared before a point further outside is visible there, if it is
visible at all. -/
theorem In.visible_of_append (h : In body (front ++ q)) (hx : x ∈ visible (front ++ q))
    (hpassed : x.decl ∈ q.passed) : x ∈ q.visible := by
  induction front with
  | nil => exact hx
  | cons sc front ih =>
    rw [cons_append, visible, mem_append] at hx
    rcases hx with hx | hx
    · rcases h.outer with hnil | ⟨hrest, -⟩
      · obtain ⟨rfl, rfl⟩ := append_eq_nil_iff.1 hnil
        contradiction
      · exact ih hrest hx
    · -- the number would have been passed twice
      have hnodup := (h.nodup_passed hids).of_append_left
      rw [cons_append, passed, passed_append] at hnodup
      have hin := mem_append_left (passed front) hpassed
      have hown : x.decl ∈ sc.head.loopVar.toList.map LocalVar.decl ++
          sc.head.block :: idsOfStmts sc.before := by
        have hscope := visible_sublist_passed [sc]
        exact hscope.subset (mem_map_of_mem hx)
      exact absurd hown (disjoint_of_nodup_append hnodup hin)

/-- A variable that is visible around scopes is declared in none of them. -/
theorem In.not_own_of_append (h : In body (front ++ q)) (hx : x ∈ q.visible) :
    ∀ sc ∈ front, x ∉ sc.own := by
  induction front with
  | nil => simp
  | cons sc front ih =>
    have hvisible : x ∈ visible (front ++ q) := by
      rw [visible_append]
      exact mem_append_left _ hx
    intro sc' hsc'
    rcases mem_cons.1 hsc' with rfl | hsc'
    · intro hown
      exact h.not_visible_of_own hids (mem_map_of_mem hown) (mem_map_of_mem hvisible)
    · rcases h.outer with hnil | ⟨hrest, -⟩
      · obtain ⟨rfl, rfl⟩ := append_eq_nil_iff.1 hnil
        contradiction
      · exact ih hrest sc' hsc'

/-- The scope of a variable that is visible around scopes is found there. -/
theorem In.scopeOf?_append (h : In body (front ++ q)) {d : NodeId}
    (hd : d ∈ q.visible.map LocalVar.decl) : scopeOf? d (front ++ q) = q.scopeOf? d := by
  induction front with
  | nil => rfl
  | cons sc front ih =>
    have hvisible : d ∈ (visible (front ++ q)).map LocalVar.decl := by
      rw [visible_append, map_append]
      exact mem_append_left _ hd
    have hown : d ∉ sc.own.map LocalVar.decl :=
      fun hown => h.not_visible_of_own hids hown hvisible
    rw [cons_append, scopeOf?, if_neg hown]
    rcases h.outer with hnil | ⟨hrest, -⟩
    · obtain ⟨rfl, rfl⟩ := append_eq_nil_iff.1 hnil
      contradiction
    · exact ih hrest

/-- A variable that is visible at a `defer` and still at a point where it counts was declared
outside the plain blocks around the `defer`. -/
theorem In.visible_of_mem_defers (hp : p.In body) (hq : q ∈ p.defers) (hxq : x ∈ q.visible)
    (hxp : x ∈ p.visible) :
    ∃ front sc outer earlier s later, p = front ++ sc :: outer ∧
      sc.before = earlier ++ s :: later ∧
      Below (⟨sc.head, earlier, s :: (later ++ sc.rest)⟩ :: outer) q ∧
      x ∈ visible (⟨sc.head, earlier, s :: (later ++ sc.rest)⟩ :: outer) := by
  have hpassed : x.decl ∈ q.passed :=
    q.visible_sublist_passed.subset (mem_map_of_mem hxq)
  obtain ⟨front, sc, outer, earlier, s, later, rfl, hbefore, hplain, hbelow, -⟩ :=
    exists_below_of_mem_defers hq
  refine ⟨front, sc, outer, earlier, s, later, rfl, hbefore, hbelow, ?_⟩
  obtain ⟨⟨more, hmore, hsub⟩, -⟩ := hbelow.exists_passed rfl
  rw [hmore, mem_append] at hpassed
  have hscope : In body (sc :: outer) := hp.of_append (cons_ne_nil _ _)
  have hnodup := (hscope.nodup_passed hids).of_append_left
  rw [passed_of_before hbefore (s :: (later ++ sc.rest))] at hnodup
  have hx : x ∈ visible (sc :: outer) := by
    refine hp.visible_of_append hids hxp ?_
    rw [passed_of_before hbefore (s :: (later ++ sc.rest)), mem_append]
    exact hpassed.imp_right fun hx => mem_append_left _ (hsub _ hx)
  rw [visible, OpenScope.own, hbefore, filterMap_append, filterMap_cons_none hplain,
    ← append_assoc, ← append_assoc, mem_append] at hx
  rcases hx with hx | hx
  · rw [visible, OpenScope.own, ← append_assoc]
    exact hx
  · -- declared behind the `defer`, it would not be visible there
    have hlater := (declared_sublist_ids later).subset (mem_map_of_mem hx)
    rcases hpassed with hpassed | hpassed
    · exact absurd (mem_append_right _ hlater)
        (disjoint_of_nodup_append hnodup hpassed)
    · exact absurd hlater
        (disjoint_of_nodup_append hnodup.of_append_right (hsub _ hpassed))

/-- A variable belongs to the same scope at a `defer` and at a point where the `defer` counts. -/
theorem In.scopeOf?_of_mem_defers (hp : p.In body) (hq : q ∈ p.defers) (hxq : x ∈ q.visible)
    (hxp : x ∈ p.visible) : q.scopeOf? x.decl = p.scopeOf? x.decl := by
  have hqin := hp.of_mem_defers hq
  obtain ⟨front, sc, outer, earlier, s, later, rfl, hbefore, hbelow, hx⟩ :=
    hp.visible_of_mem_defers hids hq hxq hxp
  obtain ⟨inner, rfl, -⟩ := hbelow.exists_append
  have hscope : In body (sc :: outer) := hp.of_append (cons_ne_nil _ _)
  have hdecl := mem_map_of_mem (f := LocalVar.decl) hx
  have hmore : ∀ d, d ∈ (OpenScope.own ⟨sc.head, earlier, s :: (later ++ sc.rest)⟩).map
      LocalVar.decl → d ∈ sc.own.map LocalVar.decl := by
    intro d hd
    rw [OpenScope.own, hbefore, filterMap_append, ← append_assoc, map_append]
    exact mem_append_left _ hd
  rw [visible, map_append, mem_append] at hdecl
  have hvisible : x.decl ∈ (visible (sc :: outer)).map LocalVar.decl := by
    rw [visible, map_append, mem_append]
    exact hdecl.imp_right (hmore _)
  -- the scope may have got more variables since, but `x` is none of them
  have hsame : scopeOf? x.decl (⟨sc.head, earlier, s :: (later ++ sc.rest)⟩ :: outer) =
      scopeOf? x.decl (sc :: outer) := by
    by_cases hown : x.decl ∈
        (OpenScope.own ⟨sc.head, earlier, s :: (later ++ sc.rest)⟩).map LocalVar.decl
    · rw [scopeOf?, if_pos hown, scopeOf?, if_pos (hmore _ hown)]
    · have houter := hdecl.resolve_right hown
      have hnot : x.decl ∉ sc.own.map LocalVar.decl :=
        fun h => hscope.not_visible_of_own hids h houter
      rw [scopeOf?, if_neg hown, scopeOf?, if_neg hnot]
  calc scopeOf? x.decl (inner ++ ⟨sc.head, earlier, s :: (later ++ sc.rest)⟩ :: outer)
      = scopeOf? x.decl (⟨sc.head, earlier, s :: (later ++ sc.rest)⟩ :: outer) :=
        hqin.scopeOf?_append hids (mem_map_of_mem hx)
    _ = scopeOf? x.decl (sc :: outer) := hsame
    _ = scopeOf? x.decl (front ++ sc :: outer) := (hp.scopeOf?_append hids hvisible).symm

/-- No variable that is visible at a `defer` is declared behind a point where the `defer`
counts. -/
theorem In.fresh_of_mem_defers (hp : p.In body) (hq : q ∈ p.defers) (hnext : p.next? = some s)
    (hx : x ∈ q.visible) : x.decl ∉ s.ids := by
  intro hs
  -- the number of the variable was passed in front of the `defer` already
  have hpassed : x.decl ∈ p.passed := by
    refine passed_subset_of_mem_defers hq _ ?_
    exact q.visible_sublist_passed.subset (mem_map_of_mem hx)
  have hahead : x.decl ∈ idsOfStmts p.rest := by
    rw [rest_eq_of_next? hnext, idsOfStmts]
    exact mem_append_left _ hs
  exact disjoint_of_nodup_append (hp.nodup_passed hids) hpassed hahead

omit hids in
/-- What may not run defers nothing behind it. -/
theorem defersAt_of_conditional {here : Point} {kind : ScopeKind} {loopVar : Option LocalVar}
    {b : Block} (hblock : (kind, loopVar, b) ∈ s.blocks) (hkind : kind.isConditional = true) :
    defersAt here s = [] := by
  cases s with
  | block body =>
    obtain ⟨rfl, -⟩ : kind = .block ∧ _ := by simpa [Stmt.blocks] using hblock
    contradiction
  | ifElse | whileLoop | forIn => rfl
  | _ => contradiction

omit hids in
/-- Behind a plain block its `defer`s still count, and behind another one they do not. -/
theorem In.defers_leave {head : ScopeHead} {before : List Stmt} {outer : Point}
    (h : In body (⟨head, before, []⟩ :: outer)) :
    (head.kind = .block ∧ outer.advance.defers = defers (⟨head, before, []⟩ :: outer)) ∨
      ((outer = [] ∨ head.kind.isConditional = true) ∧ outer.advance.defers = outer.defers) := by
  rcases h.outer with rfl | ⟨-, s, hnext, hblock⟩
  · exact .inr ⟨.inl rfl, rfl⟩
  · obtain ⟨block, span, kind, loopVar⟩ := head
    rw [append_nil] at hblock
    rw [defers_advance_of_next hnext]
    rcases Stmt.plain_or_conditional hblock with ⟨hplain, hloop, hs⟩ | hkind
    · obtain ⟨rfl, rfl⟩ : kind = .block ∧ loopVar = none := ⟨hplain, hloop⟩
      subst hs
      exact .inl ⟨rfl, rfl⟩
    · rw [defersAt_of_conditional hblock hkind]
      exact .inr ⟨.inr hkind, rfl⟩

end Scopes

end Point

end DeferLang
