import DeferLang.Proofs.DeferOrder
import Mathlib.Data.List.Induction

/-!
# Cleanup orders follow the points

`ScopeCleanup` is updated statement by statement: declared variables go to the
back, deferred ones to the front, and the effects of a finished plain block are
applied once more outside.  `Tracks` says what all this amounts to at a point:
the orders are those that the visible variables and the hits at the point call
for, and the effects kept for the enclosing scope are the hits on its variables.
-/

namespace DeferLang

open Cleanup List

namespace Context

/-- The symbol of a variable. -/
def symbolOf (ctx : Context) (x : LocalVar) : SymbolId :=
  (ctx.declSymbol? x.decl).getD 0

/-- The tables know a variable: its declaration has a symbol, which leads back to it. -/
def Knows (ctx : Context) (x : LocalVar) : Prop :=
  ∃ symbol s, ctx.declSymbol? x.decl = some symbol ∧ ctx.symbols.get? symbol = some s ∧
    s.decl = x.decl ∧ s.name = x.name

variable {ctx : Context} {x y : LocalVar}

theorem Knows.declSymbol_eq (h : ctx.Knows x) : ctx.declSymbol? x.decl = some (ctx.symbolOf x) := by
  obtain ⟨symbol, s, hsymbol, -⟩ := h
  rw [symbolOf, hsymbol, Option.getD_some]

theorem Knows.get_symbolOf (h : ctx.Knows x) :
    ∃ s, ctx.symbols.get? (ctx.symbolOf x) = some s ∧ s.decl = x.decl ∧ s.name = x.name := by
  obtain ⟨symbol, s, hsymbol, hs⟩ := h
  refine ⟨s, ?_⟩
  rw [symbolOf, hsymbol, Option.getD_some]
  exact hs

theorem Knows.name_symbolOf (h : ctx.Knows x) : ctx.symbols.name (ctx.symbolOf x) = x.name := by
  obtain ⟨s, hs, -, hname⟩ := h.get_symbolOf
  rw [SymbolTable.name, hs]
  exact hname

theorem Knows.eq_of_decl (hx : ctx.Knows x) (hy : ctx.Knows y) (h : x.decl = y.decl) : x = y := by
  have hsymbol : ctx.symbolOf x = ctx.symbolOf y := by rw [symbolOf, h, symbolOf]
  obtain ⟨s, hs, -, hxname⟩ := hx.get_symbolOf
  obtain ⟨s', hs', -, hyname⟩ := hy.get_symbolOf
  rw [hsymbol, hs', Option.some.injEq] at hs
  subst hs
  cases x
  cases y
  simp only [LocalVar.mk.injEq]
  exact ⟨h, hxname.symm.trans hyname⟩

theorem Knows.eq_of_symbolOf (hx : ctx.Knows x) (hy : ctx.Knows y)
    (h : ctx.symbolOf x = ctx.symbolOf y) : x = y := by
  obtain ⟨s, hs, hxdecl, -⟩ := hx.get_symbolOf
  obtain ⟨s', hs', hydecl, -⟩ := hy.get_symbolOf
  rw [h, hs', Option.some.injEq] at hs
  subst hs
  exact hx.eq_of_decl hy (hxdecl.symm.trans hydecl)

/-- A known variable is in a list of known ones as soon as its symbol is in theirs. -/
theorem Knows.symbolOf_mem_iff (hx : ctx.Knows x) {xs : List LocalVar}
    (hxs : ∀ y ∈ xs, ctx.Knows y) : ctx.symbolOf x ∈ xs.map ctx.symbolOf ↔ x ∈ xs := by
  constructor
  · intro h
    obtain ⟨y, hy, hsymbol⟩ := mem_map.1 h
    rw [hx.eq_of_symbolOf (hxs y hy) hsymbol.symm]
    exact hy
  · exact mem_map_of_mem

/-- A hit, with the symbol of its variable. -/
def symbolHit (ctx : Context) (hit : LocalVar × CleanupAction) : SymbolId × CleanupAction :=
  (ctx.symbolOf hit.1, hit.2)

theorem erase_map_symbolOf (hx : ctx.Knows x) {xs : List LocalVar} (hxs : ∀ y ∈ xs, ctx.Knows y) :
    (xs.map ctx.symbolOf).erase (ctx.symbolOf x) = (xs.erase x).map ctx.symbolOf := by
  induction xs with
  | nil => rfl
  | cons y ys ih =>
    have hy : ctx.Knows y := hxs y mem_cons_self
    have hys : ∀ z ∈ ys, ctx.Knows z := fun z hz => hxs z (mem_cons_of_mem y hz)
    by_cases hyx : y = x
    · subst hyx
      simp
    · have hne : ctx.symbolOf y ≠ ctx.symbolOf x := fun e => hyx (hy.eq_of_symbolOf hx e)
      rw [map_cons, erase_cons_tail (by simpa using hne),
        erase_cons_tail (by simpa using hyx), map_cons, ih hys]

end Context

/-- The effect of a `defer`, without its place. -/
def DeferEffect.hit (e : DeferEffect) : SymbolId × CleanupAction :=
  (e.var, e.action)

/-- The orders and registered actions are those that visible variables and hits call for. -/
structure ScopeCleanup.Follows (t : ScopeCleanup) (ctx : Context) (visible : List LocalVar)
    (hits : Hits) : Prop where
  returnOrder_eq : t.returnOrder = (deferOrder visible hits).map ctx.symbolOf
  scopeEndOrder_eq : t.scopeEndOrder = (deferOrder visible hits).map ctx.symbolOf
  registered_eq : t.registered = (hits.filter (·.1 ∈ visible)).map ctx.symbolHit

namespace ScopeCleanup.Follows

variable {ctx : Context} {t : ScopeCleanup} {visible : List LocalVar}
  {hits : Hits} {x : LocalVar}

/-- Only a fresh variable goes to the back of every order. -/
theorem declare (h : t.Follows ctx visible hits) (hx : x ∉ hits.map Prod.fst) :
    (t.declare (ctx.symbolOf x)).Follows ctx (visible ++ [x]) hits where
  returnOrder_eq := by
    rw [deferOrder_declare hx, map_append, ← h.returnOrder_eq]
    rfl
  scopeEndOrder_eq := by
    rw [deferOrder_declare hx, map_append, ← h.scopeEndOrder_eq]
    rfl
  registered_eq := by
    change t.registered = _
    rw [h.registered_eq]
    congr 1
    apply filter_congr
    intro hit hhit
    have hne : hit.1 ≠ x := fun e => hx (e ▸ mem_map_of_mem hhit)
    simp [hne]

/-- Applying an effect to a visible variable is one more hit. -/
theorem apply (h : t.Follows ctx visible hits) (hnodup : visible.Nodup)
    (hv : ∀ y ∈ visible, ctx.Knows y) (hx : x ∈ visible) {e : DeferEffect}
    {action : CleanupAction} (he : e.hit = ctx.symbolHit (x, action)) :
    (t.apply e).Follows ctx visible ((x, action) :: hits) := by
  obtain ⟨hvar, haction⟩ := Prod.mk.inj he
  have hbump : bumpToFront e.var ((deferOrder visible hits).map ctx.symbolOf) =
      (deferOrder visible ((x, action) :: hits)).map ctx.symbolOf := by
    have hmem : e.var ∈ (deferOrder visible hits).map ctx.symbolOf := by
      rw [hvar]
      exact mem_map_of_mem (mem_deferOrder.2 hx)
    rw [bumpToFront, if_pos hmem, deferOrder_hit hnodup hx, map_cons, hvar,
      Context.erase_map_symbolOf (hv x hx) fun y hy => hv y (mem_deferOrder.1 hy)]
  constructor
  · change bumpToFront e.var t.returnOrder = _
    rw [h.returnOrder_eq, hbump]
  · change bumpToFront e.var t.scopeEndOrder = _
    rw [h.scopeEndOrder_eq, hbump]
  · change (e.var, e.action) :: t.registered = _
    rw [h.registered_eq, filter_cons_of_pos (by simpa using hx), map_cons]
    exact congrArg (· :: _) he

/-- A hit on a variable that is not visible leaves everything as it is. -/
theorem skip (h : t.Follows ctx visible hits) (hx : x ∉ visible) (action : CleanupAction) :
    t.Follows ctx visible ((x, action) :: hits) where
  returnOrder_eq := by rw [deferOrder_skip hx, h.returnOrder_eq]
  scopeEndOrder_eq := by rw [deferOrder_skip hx, h.scopeEndOrder_eq]
  registered_eq := by rw [filter_cons_of_neg (by simpa using hx), h.registered_eq]

/-- Applying effects in order, with any step that applies an effect to both orders, adds the
hits that they stand for. -/
theorem foldl {step : ScopeCleanup → DeferEffect → ScopeCleanup}
    (hstep : ∀ t e visible hits, (t.apply e).Follows ctx visible hits →
      (step t e).Follows ctx visible hits) (h : t.Follows ctx visible hits) (hnodup : visible.Nodup)
    (hv : ∀ y ∈ visible, ctx.Knows y) (new : Hits) (es : List DeferEffect)
    (hes : es.reverse.map DeferEffect.hit = (new.filter (·.1 ∈ visible)).map ctx.symbolHit) :
    (es.foldl step t).Follows ctx visible (new ++ hits) := by
  rw [← reverse_reverse es, foldl_reverse]
  generalize es.reverse = rs at hes
  -- The frontmost hit is applied last, so the induction runs from the back of the hits.
  induction new generalizing rs with
  | nil =>
    rw [filter_nil, map_nil, map_eq_nil_iff] at hes
    subst hes
    exact h
  | cons hit new ih =>
    obtain ⟨x, action⟩ := hit
    by_cases hx : x ∈ visible
    · rw [filter_cons_of_pos (by simpa using hx), map_cons, map_eq_cons_iff] at hes
      obtain ⟨e, rs', rfl, he, hrest⟩ := hes
      exact hstep _ _ _ _ ((ih rs' hrest).apply hnodup hv hx he)
    · rw [filter_cons_of_neg (by simpa using hx)] at hes
      exact (ih rs hes).skip hx action

end ScopeCleanup.Follows

namespace ScopeCleanup

variable (t : ScopeCleanup) (es : List DeferEffect)

/-- Effects change neither the kind of a scope nor its own variables. -/
theorem scope_inherit (e : DeferEffect) :
    (t.inherit e).kind = t.kind ∧ (t.inherit e).locals = t.locals := by
  unfold ScopeCleanup.inherit
  split <;> exact ⟨rfl, rfl⟩

theorem follows_inherit {ctx : Context} {visible : List LocalVar}
    {hits : Hits} (h : t.Follows ctx visible hits) (e : DeferEffect) :
    (t.inherit e).Follows ctx visible hits := by
  unfold ScopeCleanup.inherit
  split
  · exact h
  · exact ⟨h.returnOrder_eq, h.scopeEndOrder_eq, h.registered_eq⟩

theorem scope_applyAll : (t.applyAll es).kind = t.kind ∧ (t.applyAll es).locals = t.locals := by
  induction es generalizing t with
  | nil => exact ⟨rfl, rfl⟩
  | cons e es ih =>
    have hfirst := (t.apply e).scope_inherit e
    have hrest := ih ((t.apply e).inherit e)
    exact ⟨hrest.1.trans hfirst.1, hrest.2.trans hfirst.2⟩

theorem inherited_applyAll :
    (t.applyAll es).inherited = t.inherited ++ es.filter fun e => !t.isLocal e.var := by
  induction es generalizing t with
  | nil => simp [applyAll]
  | cons e es ih =>
    change (((t.apply e).inherit e).applyAll es).inherited = _
    have hlocal : ∀ var, ((t.apply e).inherit e).isLocal var = t.isLocal var := by
      intro var
      rw [isLocal, (scope_inherit _ e).2]
      rfl
    -- only an effect on a variable from outside is kept
    have hkeep : ((t.apply e).inherit e).inherited =
        t.inherited ++ if t.isLocal e.var then [] else [e] := by
      unfold ScopeCleanup.inherit
      change (if t.isLocal e.var = true then t.apply e
        else { t.apply e with inherited := t.inherited ++ [e] }).inherited = _
      split
      · rw [append_nil]
        rfl
      · rfl
    rw [ih, hkeep]
    simp only [hlocal, append_assoc]
    cases hvar : t.isLocal e.var <;> simp [hvar]

theorem scope_replay : (t.replay es).kind = t.kind ∧ (t.replay es).locals = t.locals := by
  induction es generalizing t with
  | nil => exact ⟨rfl, rfl⟩
  | cons e es ih =>
    have hfirst : (if t.isConditional then t.apply e else (t.apply e).inherit e).kind = t.kind ∧
        (if t.isConditional then t.apply e else (t.apply e).inherit e).locals = t.locals := by
      split
      · exact ⟨rfl, rfl⟩
      · exact (t.apply e).scope_inherit e
    have hrest := ih (if t.isConditional then t.apply e else (t.apply e).inherit e)
    exact ⟨hrest.1.trans hfirst.1, hrest.2.trans hfirst.2⟩

/-- A scope that always runs keeps the effects of a block in it like those of its own
`defer`s. -/
theorem replay_eq_applyAll (h : t.isConditional = false) : t.replay es = t.applyAll es := by
  induction es generalizing t with
  | nil => rfl
  | cons e es ih =>
    change (if t.isConditional then t.apply e else (t.apply e).inherit e).replay es =
      ((t.apply e).inherit e).applyAll es
    rw [h, if_neg Bool.false_ne_true]
    apply ih
    rw [isConditional, (scope_inherit _ e).1]
    exact h

end ScopeCleanup

/-- The hits by the `defer`s of the innermost scope of a point. -/
def Point.scopeHits (ctx : Context) : Point → Hits
  | [] => []
  | sc :: outer =>
    (Point.defersAmong outer sc.head [] sc.rest sc.before).flatMap (Point.hitsHere ctx)

theorem Point.hits_eq (ctx : Context) (sc : OpenScope) (outer : Point) :
    hits ctx (sc :: outer) = scopeHits ctx (sc :: outer) ++ hits ctx outer := by
  simp only [hits, scopeHits, defers, flatMap_append]

theorem Point.scopeHits_advance (ctx : Context) (head : ScopeHead) (before rest : List Stmt)
    (s : Stmt) (outer : Point) :
    scopeHits ctx (⟨head, before ++ [s], rest⟩ :: outer) =
      (defersAt (⟨head, before, s :: rest⟩ :: outer) s).flatMap (hitsHere ctx) ++
        scopeHits ctx (⟨head, before, s :: rest⟩ :: outer) := by
  simp only [scopeHits, defersAmong_append, defersAmong, nil_append, singleton_append,
    flatMap_append]

open Point (visible hits hitsHere defersAt scopeHits isValidDefer)

/-- The orders of a scope are right at a point: `sc` is the scope there, inside `outer`. -/
structure Tracks (ctx : Context) (sc : OpenScope) (outer : Point) (t : ScopeCleanup) : Prop where
  kind_eq : t.kind = sc.head.kind
  locals_eq : t.locals = sc.own.map ctx.symbolOf
  follows : t.Follows ctx (visible (sc :: outer)) (hits ctx (sc :: outer))
  /-- What a plain block keeps for its surroundings are its hits on their variables. -/
  inherited_eq : sc.head.kind.isConditional = false →
    t.inherited.reverse.map DeferEffect.hit =
      ((scopeHits ctx (sc :: outer)).filter (·.1 ∈ outer.visible)).map ctx.symbolHit
  nodup : (visible (sc :: outer)).Nodup
  knows : ∀ x ∈ visible (sc :: outer), ctx.Knows x

namespace Tracks

variable {ctx : Context} {head : ScopeHead} {before rest : List Stmt} {s : Stmt}
  {outer : Point} {t : ScopeCleanup} {sc : OpenScope}

theorem knows_own (h : Tracks ctx sc outer t) : ∀ x ∈ sc.own, ctx.Knows x :=
  fun x hx => h.knows x (mem_append_right _ hx)

theorem isLocal_iff (h : Tracks ctx sc outer t) {x : LocalVar} (hx : ctx.Knows x) :
    t.isLocal (ctx.symbolOf x) = true ↔ x ∈ sc.own := by
  rw [ScopeCleanup.isLocal, h.locals_eq, decide_eq_true_eq, hx.symbolOf_mem_iff h.knows_own]

theorem withReturn (h : Tracks ctx sc outer t) (hasReturn : Bool) :
    Tracks ctx sc outer { t with hasReturn } :=
  { h with follows := { h.follows with } }

/-- One more known variable may be visible. -/
theorem visible_concat (h : Tracks ctx sc outer t) {x : LocalVar} (hknows : ctx.Knows x)
    (hvisible : x ∉ visible (sc :: outer)) :
    (visible (sc :: outer) ++ [x]).Nodup ∧ ∀ y ∈ visible (sc :: outer) ++ [x], ctx.Knows y := by
  refine ⟨nodup_append.2 ⟨h.nodup, nodup_singleton _, ?_⟩,
    forall_mem_append.2 ⟨h.knows, forall_mem_singleton.2 hknows⟩⟩
  rintro y hy z hz rfl
  exact hvisible (mem_singleton.1 hz ▸ hy)

/-- A fresh variable is declared. -/
theorem declare {d : VarDecl} (h : Tracks ctx ⟨head, before, .varDecl d :: rest⟩ outer t)
    (hknows : ctx.Knows d.toLocal)
    (hvisible : d.toLocal ∉ visible (⟨head, before, .varDecl d :: rest⟩ :: outer))
    (hhits : d.toLocal ∉ (hits ctx (⟨head, before, .varDecl d :: rest⟩ :: outer)).map Prod.fst) :
    Tracks ctx ⟨head, before ++ [.varDecl d], rest⟩ outer
      (t.declare (ctx.symbolOf d.toLocal)) := by
  have hnext : visible (⟨head, before ++ [.varDecl d], rest⟩ :: outer) =
      visible (⟨head, before, .varDecl d :: rest⟩ :: outer) ++ [d.toLocal] := by
    rw [Point.visible_advance]
    rfl
  constructor
  · exact h.kind_eq
  · change t.locals ++ [ctx.symbolOf d.toLocal] = _
    rw [h.locals_eq]
    simp [OpenScope.own, Stmt.declared?]
  · rw [hnext, Point.hits_advance]
    exact h.follows.declare hhits
  · rw [Point.scopeHits_advance]
    exact h.inherited_eq
  · rw [hnext]
    exact (h.visible_concat hknows hvisible).1
  · rw [hnext]
    exact (h.visible_concat hknows hvisible).2

/-- A scope inside is entered; the variable of a loop is fresh. -/
theorem enter (h : Tracks ctx sc outer t) (id : NodeId) (span : Span) (kind : ScopeKind)
    (loopVar : Option LocalVar) (rest : List Stmt) (hknows : ∀ x ∈ loopVar, ctx.Knows x)
    (hvisible : ∀ x ∈ loopVar, x ∉ visible (sc :: outer))
    (hhits : ∀ x ∈ loopVar, x ∉ (hits ctx (sc :: outer)).map Prod.fst) :
    Tracks ctx ⟨⟨id, span, kind, loopVar⟩, [], rest⟩ (sc :: outer)
      (entryOrders (some t) id span kind (loopVar.map ctx.symbolOf)) := by
  -- inside, both orders start as the return order around
  have hnested : (t.nested id span kind).Follows ctx (visible (sc :: outer))
      (hits ctx (sc :: outer)) :=
    ⟨h.follows.returnOrder_eq, h.follows.returnOrder_eq, h.follows.registered_eq⟩
  have hempty : hits ctx (⟨⟨id, span, kind, loopVar⟩, [], rest⟩ :: sc :: outer) =
      hits ctx (sc :: outer) := by
    rw [Point.hits_eq]
    simp [scopeHits, Point.defersAmong]
  have hstart : visible (⟨⟨id, span, kind, loopVar⟩, [], rest⟩ :: sc :: outer) =
      visible (sc :: outer) ++ loopVar.toList := by
    rw [visible]
    simp [OpenScope.own]
  cases loopVar with
  | none =>
    rw [Option.toList_none, append_nil] at hstart
    refine ⟨rfl, rfl, ?_, fun _ => rfl, hstart ▸ h.nodup, hstart ▸ h.knows⟩
    rw [hstart, hempty]
    exact hnested
  | some x =>
    obtain ⟨hnodup, hknown⟩ := h.visible_concat (hknows x rfl) (hvisible x rfl)
    refine ⟨rfl, rfl, ?_, fun _ => rfl, hstart ▸ hnodup, hstart ▸ hknown⟩
    rw [hstart, hempty]
    exact hnested.declare (hhits x rfl)

/-- A scope without a loop variable is entered. -/
theorem enter_plain (h : Tracks ctx sc outer t) (id : NodeId) (span : Span) (kind : ScopeKind)
    (rest : List Stmt) :
    Tracks ctx ⟨⟨id, span, kind, none⟩, [], rest⟩ (sc :: outer)
      (entryOrders (some t) id span kind none) :=
  h.enter id span kind none rest (by simp) (by simp) (by simp)

/-- Effects are applied: the hits they stand for are those that a statement adds. -/
theorem addHits (h : Tracks ctx sc outer t) (hrest : sc.rest = s :: rest)
    (hdecl : s.declared? = none) (t' : ScopeCleanup) (es : List DeferEffect)
    (new : Hits) (hnew : (defersAt (sc :: outer) s).flatMap (hitsHere ctx) = new)
    (hes : es.reverse.map DeferEffect.hit =
      (new.filter (·.1 ∈ visible (sc :: outer))).map ctx.symbolHit)
    (hkind : t'.kind = t.kind) (hlocals : t'.locals = t.locals)
    (hfollows : t'.Follows ctx (visible (sc :: outer)) (new ++ hits ctx (sc :: outer)))
    (hinherited : sc.head.kind.isConditional = false →
      t'.inherited = t.inherited ++ es.filter fun e => !t.isLocal e.var) :
    Tracks ctx ⟨sc.head, sc.before ++ [s], rest⟩ outer t' := by
  obtain ⟨head, before, _⟩ := sc
  subst hrest
  have hown : OpenScope.own ⟨head, before ++ [s], rest⟩ =
      OpenScope.own ⟨head, before, s :: rest⟩ := by
    simp [OpenScope.own, hdecl]
  have hvisible : visible (⟨head, before ++ [s], rest⟩ :: outer) =
      visible (⟨head, before, s :: rest⟩ :: outer) := by
    rw [visible, hown, visible]
  constructor
  · rw [hkind, h.kind_eq]
  · rw [hlocals, hown, h.locals_eq]
  · rw [hvisible, Point.hits_advance, hnew]
    exact hfollows
  · intro hplain
    -- A visible variable that is not local belongs to the surroundings.
    have houter : ∀ hit ∈ new.filter (·.1 ∈ visible (⟨head, before, s :: rest⟩ :: outer)),
        (!t.isLocal (ctx.symbolOf hit.1)) = decide (hit.1 ∈ outer.visible) := by
      intro hit hhit
      have hmem : hit.1 ∈ visible (⟨head, before, s :: rest⟩ :: outer) := by
        simpa using (mem_filter.1 hhit).2
      have hlocal := h.isLocal_iff (h.knows hit.1 hmem)
      have hdisjoint := (nodup_append.1 h.nodup).2.2
      rcases mem_append.1 hmem with hin | hin
      · have hnot : hit.1 ∉ OpenScope.own ⟨head, before, s :: rest⟩ :=
          fun hmine => hdisjoint _ hin _ hmine rfl
        rw [← hlocal, Bool.not_eq_true] at hnot
        rw [hnot, decide_eq_true hin]
        rfl
      · have hnot : hit.1 ∉ outer.visible := fun hthere => hdisjoint _ hthere _ hin rfl
        rw [hlocal.2 hin, decide_eq_false hnot]
        rfl
    have hkept : (es.filter fun e => !t.isLocal e.var).reverse.map DeferEffect.hit =
        (new.filter (·.1 ∈ outer.visible)).map ctx.symbolHit := by
      rw [← filter_reverse,
        show (fun e : DeferEffect => !t.isLocal e.var) =
          (fun hit : SymbolId × CleanupAction => !t.isLocal hit.1) ∘ DeferEffect.hit from rfl,
        ← filter_map, hes, filter_map]
      congr 1
      rw [show ((fun hit : SymbolId × CleanupAction => !t.isLocal hit.1) ∘ ctx.symbolHit) =
        (fun hit => !t.isLocal (ctx.symbolOf hit.1)) from rfl, filter_congr houter,
        filter_filter]
      apply filter_congr
      intro hit _
      by_cases hin : hit.1 ∈ outer.visible <;> simp [hin, visible]
    rw [hinherited hplain, reverse_append, map_append, hkept, h.inherited_eq hplain,
      Point.scopeHits_advance, hnew, filter_append, map_append]
  · rw [hvisible]
    exact h.nodup
  · rw [hvisible]
    exact h.knows

/-- A statement that declares and defers nothing leaves the orders right. -/
theorem advance (h : Tracks ctx ⟨head, before, s :: rest⟩ outer t) (hdecl : s.declared? = none)
    (hdefer : (defersAt (⟨head, before, s :: rest⟩ :: outer) s).flatMap (hitsHere ctx) = []) :
    Tracks ctx ⟨head, before ++ [s], rest⟩ outer t :=
  h.addHits rfl hdecl t [] [] hdefer rfl rfl rfl h.follows fun _ => (append_nil _).symm

/-- A plain block is finished: its effects on variables around it are applied outside. -/
theorem block {b : Block} (h : Tracks ctx ⟨head, before, .block b :: rest⟩ outer t)
    {inner : ScopeCleanup} (hinner : Tracks ctx ⟨⟨b.id, b.span, .block, none⟩, b.stmts, []⟩
      (⟨head, before, .block b :: rest⟩ :: outer) inner) :
    Tracks ctx ⟨head, before ++ [.block b], rest⟩ outer
      ((t.replay inner.inherited).noteReturn inner) := by
  refine withReturn ?_ _
  have hnew : (defersAt (⟨head, before, .block b :: rest⟩ :: outer) (.block b)).flatMap
      (hitsHere ctx) =
        scopeHits ctx (⟨⟨b.id, b.span, .block, none⟩, b.stmts, []⟩ ::
          ⟨head, before, .block b :: rest⟩ :: outer) := by
    cases b
    rfl
  -- what the block keeps for its surroundings are its hits there
  refine h.addHits rfl rfl _ _ _ hnew (hinner.inherited_eq rfl) (t.scope_replay _).1
    (t.scope_replay _).2 ?_ ?_
  · refine h.follows.foldl ?_ h.nodup h.knows _ _ (hinner.inherited_eq rfl)
    intro t e visible hits hfollows
    split
    · exact hfollows
    · exact (t.apply e).follows_inherit hfollows e
  · intro hplain
    have hrun : t.isConditional = false := by
      rw [ScopeCleanup.isConditional, h.kind_eq]
      exact hplain
    rw [t.replay_eq_applyAll _ hrun, t.inherited_applyAll]

end Tracks

section Targets

variable {ctx : Context} {visible : List LocalVar}

theorem map_fst_deferHits (call : Call) (targets : List LocalVar) :
    (deferHits call targets).map Prod.fst = targets := by
  cases targets with
  | nil => rfl
  | cons x others =>
    rw [deferHits, map_cons, map_map]
    exact congrArg (x :: ·) (map_id others)

theorem mem_visible_of_namedBy {arg : Expr} {x : LocalVar}
    (h : ctx.namedBy? visible arg = some x) : x ∈ visible := by
  unfold Context.namedBy? at h
  split at h
  · split at h
    · contradiction
    · exact mem_of_find?_eq_some h
  · contradiction

theorem mem_visible_of_mem_targets {call : Call} {x : LocalVar}
    (h : x ∈ ctx.targets visible call) : x ∈ visible := by
  rw [Context.targets, mem_eraseDups, mem_filterMap] at h
  obtain ⟨arg, -, harg⟩ := h
  exact mem_visible_of_namedBy harg

/-- Every variable that a `defer` hits is visible in front of it. -/
theorem mem_visible_of_mem_hitsHere {p : Point} {hit : LocalVar × CleanupAction}
    (h : hit ∈ p.hitsHere ctx) : hit.1 ∈ p.visible := by
  unfold hitsHere at h
  split at h
  · split at h
    · rename_i call _ _
      have hmem : hit.1 ∈ (deferHits call (ctx.targets p.visible call)).map Prod.fst :=
        mem_map_of_mem h
      rw [map_fst_deferHits] at hmem
      exact mem_visible_of_mem_targets hmem
    · contradiction
  · contradiction

end Targets

namespace Tracks

variable {ctx : Context} {t : ScopeCleanup} {sc : OpenScope} {outer : Point}

/-- A symbol is tracked exactly if it is that of a visible variable. -/
theorem tracks_iff (h : Tracks ctx sc outer t) (symbol : SymbolId) :
    t.tracks symbol = true ↔
      ∃ x ∈ visible (sc :: outer), ctx.declSymbol? x.decl = some symbol := by
  rw [ScopeCleanup.tracks, decide_eq_true_eq, h.follows.returnOrder_eq, mem_map]
  constructor
  · rintro ⟨x, hx, rfl⟩
    rw [mem_deferOrder] at hx
    exact ⟨x, hx, (h.knows x hx).declSymbol_eq⟩
  · rintro ⟨x, hx, hsymbol⟩
    refine ⟨x, mem_deferOrder.2 hx, ?_⟩
    rw [(h.knows x hx).declSymbol_eq] at hsymbol
    exact Option.some.inj hsymbol

/-- What looking for the visible variable of a symbol gives. -/
theorem find_visible (h : Tracks ctx sc outer t) {symbol : SymbolId}
    (htracks : t.tracks symbol = true) :
    ∃ x ∈ visible (sc :: outer), ctx.symbolOf x = symbol ∧
      (visible (sc :: outer)).find? (fun y => ctx.declSymbol? y.decl = some symbol) =
        some x := by
  obtain ⟨x, hx, hsymbol⟩ := (h.tracks_iff symbol).1 htracks
  cases hfind : (visible (sc :: outer)).find?
      (fun y => ctx.declSymbol? y.decl = some symbol) with
  | none =>
    rw [List.find?_eq_none] at hfind
    exact absurd (decide_eq_true hsymbol) (hfind x hx)
  | some y =>
    have hy := mem_of_find?_eq_some hfind
    have hysymbol : ctx.declSymbol? y.decl = some symbol := by
      simpa using List.find?_some hfind
    rw [(h.knows y hy).declSymbol_eq] at hysymbol
    exact ⟨y, hy, Option.some.inj hysymbol, rfl⟩

/-- The variables found for a deferred call are the visible ones that it names. -/
theorem deferredVars_eq (h : Tracks ctx sc outer t) (args : List Expr) :
    (deferredVars ctx t args).map Prod.fst =
      ((args.filterMap (ctx.namedBy? (visible (sc :: outer)))).eraseDups).map
        ctx.symbolOf := by
  -- arguments are added at the back, where a repeated variable is left out
  induction args using List.reverseRecOn with
  | nil => rfl
  | append_singleton args arg ih =>
    have hskip (hnone : ctx.namedBy? (visible (sc :: outer)) arg = none) :
        (args ++ [arg]).filterMap (ctx.namedBy? (visible (sc :: outer))) =
          args.filterMap (ctx.namedBy? (visible (sc :: outer))) := by
      rw [filterMap_append]
      simp [hnone]
    unfold deferredVars at ih ⊢
    rw [foldl_append, foldl_cons, foldl_nil]
    generalize List.foldl _ _ args = found at ih ⊢
    split
    · rename_i id name
      split
      · rename_i symbol hresolve
        by_cases htracks : t.tracks symbol = true
        · -- a visible variable, which may have been named before
          obtain ⟨x, hx, rfl, hfind⟩ := h.find_visible htracks
          have hnamed : ctx.namedBy? (visible (sc :: outer)) (.var id name) = some x := by
            rw [Context.namedBy?, hresolve]
            exact hfind
          -- symbols are compared there and variables here; known ones agree
          have hknown : ∀ y ∈ (args.filterMap
              (ctx.namedBy? (visible (sc :: outer)))).eraseDups, ctx.Knows y := by
            intro y hy
            rw [mem_eraseDups, mem_filterMap] at hy
            obtain ⟨arg, -, harg⟩ := hy
            exact h.knows y (mem_visible_of_namedBy harg)
          have hfresh : (found.lookup (ctx.symbolOf x)).isNone = true ↔
              x ∉ args.filterMap (ctx.namedBy? (visible (sc :: outer))) := by
            rw [Option.isNone_iff_eq_none, lookup_eq_none_iff_not_mem, ih,
              (h.knows x hx).symbolOf_mem_iff hknown, mem_eraseDups]
          rw [filterMap_append, filterMap_cons, hnamed, filterMap_nil, eraseDups_concat]
          by_cases hmem : x ∈ args.filterMap (ctx.namedBy? (visible (sc :: outer)))
          · rw [if_neg fun hboth => hfresh.1 hboth.2 hmem, if_pos hmem, ih]
          · rw [if_pos ⟨htracks, hfresh.2 hmem⟩, if_neg hmem, map_append, map_append, ih]
            rfl
        · have hnamed : ctx.namedBy? (visible (sc :: outer)) (.var id name) = none := by
            rw [Context.namedBy?, hresolve]
            refine List.find?_eq_none.2 fun x hx hsymbol => htracks ?_
            exact (h.tracks_iff symbol).2 ⟨x, hx, by simpa using hsymbol⟩
          rw [if_neg fun hboth => htracks hboth.1, hskip hnamed, ih]
      · rename_i hresolve
        rw [hskip (by rw [Context.namedBy?, hresolve]), ih]
    · rename_i hvar
      rw [hskip, ih]
      cases arg with
      | var id name => exact absurd rfl (hvar id name)
      | _ => rfl

/-- The effects of a `defer`, last first, are its hits. -/
theorem hits_deferEffects (h : Tracks ctx sc outer t) (call : Call) :
    (deferEffects ctx call (deferredVars ctx t call.args)).reverse.map
        DeferEffect.hit =
      (deferHits call (ctx.targets (visible (sc :: outer)) call)).map ctx.symbolHit := by
  have hvars := h.deferredVars_eq call.args
  rw [← Context.targets] at hvars
  cases htargets : ctx.targets (visible (sc :: outer)) call with
  | nil =>
    rw [htargets, map_nil, map_eq_nil_iff] at hvars
    rw [hvars]
    rfl
  | cons x others =>
    rw [htargets, map_cons, map_eq_cons_iff] at hvars
    obtain ⟨⟨var, span⟩, found, hfound, rfl, hothers⟩ := hvars
    have hx : x ∈ ctx.targets (visible (sc :: outer)) call := by
      rw [htargets]
      exact mem_cons_self
    -- the effects name the first variable by its symbol, the hits by itself
    have hname := (h.knows x (mem_visible_of_mem_targets hx)).name_symbolOf
    have hrest (release : SymbolId × Span → DeferEffect)
        (hrelease : ∀ v, (release v).hit = (v.1, .releasedBy x.name)) :
        (found.map release).map DeferEffect.hit =
          (others.map fun y => (y, CleanupAction.releasedBy x.name)).map ctx.symbolHit := by
      have hhit : DeferEffect.hit ∘ release =
          (fun v => (v, CleanupAction.releasedBy x.name)) ∘ Prod.fst := funext hrelease
      rw [map_map, map_map, hhit]
      change _ = others.map ((fun v => (v, CleanupAction.releasedBy x.name)) ∘ ctx.symbolOf)
      rw [← map_map, hothers, map_map]
    rw [hfound, deferEffects, deferHits]
    dsimp only
    rw [hname, reverse_append, reverse_reverse, map_append, hrest _ fun _ => rfl]
    rfl

variable {rest : List Stmt} {span : Span} {call : Call}

/-- The effects of a `defer` are all on local variables exactly if its variables are. -/
theorem deferEffects_local_iff (h : Tracks ctx sc outer t) :
    ((deferEffects ctx call (deferredVars ctx t call.args)).filter
        fun e => !t.isLocal e.var) = [] ↔
      ∀ x ∈ ctx.targets (visible (sc :: outer)) call, x ∈ sc.own := by
  -- the effects come last first, so their variables are the targets in reverse
  have hvars : ((deferEffects ctx call (deferredVars ctx t call.args)).reverse.map
        DeferEffect.hit).map Prod.fst =
      (ctx.targets (visible (sc :: outer)) call).map ctx.symbolOf := by
    rw [h.hits_deferEffects, map_map,
      show Prod.fst ∘ ctx.symbolHit = ctx.symbolOf ∘ Prod.fst from rfl, ← map_map,
      map_fst_deferHits]
  rw [map_map, show Prod.fst ∘ DeferEffect.hit = DeferEffect.var from rfl, map_reverse] at hvars
  rw [filter_eq_nil_iff]
  constructor
  · intro hall x hx
    have hknown := h.knows x (mem_visible_of_mem_targets hx)
    have hmem : ctx.symbolOf x ∈ ((deferEffects ctx call
        (deferredVars ctx t call.args)).map DeferEffect.var).reverse := by
      rw [hvars]
      exact mem_map_of_mem hx
    rw [mem_reverse, mem_map] at hmem
    obtain ⟨e, he, hvar⟩ := hmem
    have hlocal := hall e he
    rw [hvar] at hlocal
    exact (h.isLocal_iff hknown).1 (by simpa using hlocal)
  · intro hall e he
    have hmem : e.var ∈ (ctx.targets (visible (sc :: outer)) call).map ctx.symbolOf := by
      rw [← hvars, mem_reverse]
      exact mem_map_of_mem he
    obtain ⟨x, hx, hvar⟩ := mem_map.1 hmem
    have hknown := h.knows x (mem_visible_of_mem_targets hx)
    rw [← hvar, (h.isLocal_iff hknown).2 (hall x hx)]
    exact Bool.false_ne_true

/-- A `defer` is planned without a fault exactly if it is valid. -/
theorem deferFaults_eq_nil_iff (h : Tracks ctx sc outer t)
    (hrest : sc.rest = .defer span call :: rest) :
    deferFaults ctx t (rest.any Stmt.isReturn)
        (deferEffects ctx call (deferredVars ctx t call.args)) = [] ↔
      isValidDefer ctx (sc :: outer) = true := by
  have hcond : t.isConditional = sc.head.kind.isConditional := by
    rw [ScopeCleanup.isConditional, h.kind_eq]
  have hvalid : isValidDefer ctx (sc :: outer) =
      (!sc.head.kind.isConditional || rest.any Stmt.isReturn ||
        (ctx.targets (visible (sc :: outer)) call).all (· ∈ sc.own)) := by
    simp [isValidDefer, Point.targets, Point.next?, hrest]
  rw [hvalid, deferFaults, hcond]
  -- a fault takes a scope that may not run, without a `return` behind the `defer`
  cases sc.head.kind.isConditional with
  | false => simp
  | true =>
    cases rest.any Stmt.isReturn with
    | true => simp
    | false =>
      rw [if_pos ⟨rfl, rfl⟩, map_eq_nil_iff, h.deferEffects_local_iff]
      simp

/-- A `defer` takes effect where it hits a variable.  Otherwise something is reported, and the
orders stay. -/
theorem planDefer_cases (h : Tracks ctx sc outer t) (hrest : sc.rest = .defer span call :: rest) :
    (hitsHere ctx (sc :: outer) = [] ∧ (planDefer ctx t call (rest.any Stmt.isReturn)).1 = t ∧
        (planDefer ctx t call (rest.any Stmt.isReturn)).2 ≠ []) ∨
      hitsHere ctx (sc :: outer) ≠ [] ∧ ∃ es,
        (planDefer ctx t call (rest.any Stmt.isReturn)).1 = t.applyAll es ∧
          es.reverse.map DeferEffect.hit = (hitsHere ctx (sc :: outer)).map ctx.symbolHit := by
  have hhits := h.hits_deferEffects call
  have hfaults := h.deferFaults_eq_nil_iff hrest
  have hhere : hitsHere ctx (sc :: outer) = if isValidDefer ctx (sc :: outer) then
      deferHits call (ctx.targets (visible (sc :: outer)) call) else [] := by
    simp [hitsHere, Point.next?, hrest]
  unfold planDefer
  generalize deferEffects ctx call (deferredVars ctx t call.args) = es
    at hhits hfaults ⊢
  by_cases hempty : es = []
  · subst hempty
    have hnone : deferHits call (ctx.targets (visible (sc :: outer)) call) = [] := by
      simpa using hhits.symm
    exact .inl ⟨by rw [hhere, hnone, ite_self], rfl, cons_ne_nil _ _⟩
  · by_cases hvalid : isValidDefer ctx (sc :: outer) = true
    · rw [if_pos hvalid] at hhere
      rw [← hhere] at hhits
      refine .inr ⟨fun hnone => hempty ?_, es, ?_, hhits⟩
      · simpa [hnone] using hhits
      · simp [hempty, hfaults.2 hvalid]
    · have hsome := mt hfaults.1 hvalid
      exact .inl ⟨by rw [hhere, if_neg hvalid], by simp [hempty, hsome], by simp [hempty, hsome]⟩

/-- A `defer` is planned. -/
theorem defer (h : Tracks ctx sc outer t) (hrest : sc.rest = .defer span call :: rest) :
    Tracks ctx ⟨sc.head, sc.before ++ [.defer span call], rest⟩ outer
      (planDefer ctx t call (rest.any Stmt.isReturn)).1 := by
  have hnew : (defersAt (sc :: outer) (.defer span call)).flatMap (hitsHere ctx) =
      hitsHere ctx (sc :: outer) := flatMap_singleton _ _
  rcases h.planDefer_cases hrest with ⟨hnone, heq, -⟩ | ⟨-, es, heq, hes⟩
  · rw [heq]
    exact h.addHits hrest rfl t [] [] (hnew.trans hnone) rfl rfl rfl h.follows
      fun _ => (append_nil _).symm
  · have hvisible : es.reverse.map DeferEffect.hit =
        ((hitsHere ctx (sc :: outer)).filter (·.1 ∈ visible (sc :: outer))).map ctx.symbolHit := by
      rw [hes, filter_eq_self.2]
      exact fun hit hhit => decide_eq_true (mem_visible_of_mem_hitsHere hhit)
    rw [heq]
    refine h.addHits hrest rfl _ es _ hnew hvisible (t.scope_applyAll es).1 (t.scope_applyAll es).2
      ?_ fun _ => t.inherited_applyAll es
    refine h.follows.foldl ?_ h.nodup h.knows _ es hvisible
    exact fun t e _ _ hfollows => (t.apply e).follows_inherit hfollows e

end Tracks

end DeferLang
