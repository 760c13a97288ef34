import DeferLang.Proofs.Declarations
import DeferLang.Proofs.Nesting
import Mathlib.Data.List.Pairwise

/-!
# What points say about the tables

At a point of a body a name stands for the earliest variable of its name in the
innermost open scope that declares one before the point (`Point.lookup?`).
Checking agrees with this at every point, also in a program with errors: the
stack of scopes is a function of the point that checking has reached
(`Point.scopes`), and the tables and errors grow by what the points on the way
say (`Checker.Tells`).
-/

namespace DeferLang

open List

variable {x : LocalVar} {sc : OpenScope} {p q : Point} {s : Stmt} {table : SymbolTable}

/-- The variables that a statement reads itself, outside the blocks in it. -/
def Stmt.vars : Stmt → List (NodeId × Ident)
  | .varDecl d => Check.initVars d.init
  | .assign _ left value => left.vars ++ value.vars
  | .call _ c => c.vars
  | .ifElse _ cond _ _ => cond.vars
  | .whileLoop _ cond _ => cond.vars
  | .forIn _ _ _ iter _ => iter.vars
  | .ret _ value => Check.initVars value
  | .defer _ c => c.vars
  | .block _ => []
  | .cleanup _ => []

/-- The variables that the statement behind a point reads. -/
def Point.vars (p : Point) : List (NodeId × Ident) :=
  p.next?.elim [] Stmt.vars

theorem Point.vars_eq (h : p.next? = some s) : p.vars = s.vars := by
  rw [vars, h, Option.elim_some]

/-- The earliest variable of each name, in order. -/
def earliest : List LocalVar → List LocalVar
  | [] => []
  | x :: xs => x :: (earliest xs).filter (·.name ≠ x.name)

section Earliest

variable (xs : List LocalVar)

/-- Leaving out later variables does not change which one is found. -/
theorem find?_earliest (name : String) :
    (earliest xs).find? (·.name = name) = xs.find? (·.name = name) := by
  induction xs with
  | nil => rfl
  | cons x xs ih =>
    rw [earliest, List.find?_cons, List.find?_cons]
    by_cases h : x.name = name
    · simp [h]
    · simp only [h, decide_false]
      rw [← ih, List.find?_filter]
      congr 1
      ext y
      by_cases hy : y.name = name
      · simp [hy, Ne.symm h]
      · simp [hy]

theorem earliest_concat (x : LocalVar) :
    earliest (xs ++ [x]) =
      if xs.find? (·.name = x.name) = none then earliest xs ++ [x] else earliest xs := by
  induction xs with
  | nil => rfl
  | cons y xs ih =>
    rw [cons_append, earliest, ih, List.find?_cons, earliest]
    by_cases hy : y.name = x.name
    · simp only [hy, decide_true, reduceCtorEq, if_false]
      split <;> simp
    · have hne : x.name ≠ y.name := Ne.symm hy
      simp only [hy, decide_false]
      split <;> simp [hne]

end Earliest

theorem mem_of_mem_earliest {xs : List LocalVar} (h : x ∈ earliest xs) : x ∈ xs := by
  induction xs with
  | nil => contradiction
  | cons y xs ih =>
    rw [earliest, mem_cons, mem_filter] at h
    exact mem_cons.2 (h.imp_right fun h => ih h.1)

namespace Point

/-- The variable that a name stands for at a point: the earliest of the innermost scope that
declares the name before the point. -/
def lookup? (p : Point) (name : String) : Option LocalVar :=
  p.findSome? fun sc => sc.own.find? (·.name = name)

theorem mem_visible_of_own (hsc : sc ∈ q) (hx : x ∈ sc.own) :
    x ∈ q.visible := by
  induction q with
  | nil => contradiction
  | cons inner outer ih =>
    rw [visible, mem_append]
    rcases mem_cons.1 hsc with rfl | hsc
    · exact .inr hx
    · exact .inl (ih hsc)

theorem exists_of_lookup? {name : String} (h : p.lookup? name = some x) :
    ∃ sc ∈ p, x ∈ sc.own := by
  obtain ⟨sc, hsc, hfind⟩ := exists_of_findSome?_eq_some h
  exact ⟨sc, hsc, mem_of_find?_eq_some hfind⟩

/-- A name stands for a visible variable of that name. -/
theorem visible_of_lookup? {name : String} (h : p.lookup? name = some x) :
    x ∈ p.visible ∧ x.name = name := by
  obtain ⟨sc, hsc, hfind⟩ := exists_of_findSome?_eq_some h
  exact ⟨mem_visible_of_own hsc (mem_of_find?_eq_some hfind),
    by simpa using List.find?_some hfind⟩

/-- The scope that checking keeps for an open scope, if the symbol of a variable is its place
among all variables. -/
def scopeAt (all : List LocalVar) (sc : OpenScope) : Scope where
  block := sc.head.block
  entries := (earliest sc.own).map fun x => (x.name, all.idxOf x)

/-- The scopes that checking keeps at a point. -/
def scopes (all : List LocalVar) (p : Point) : ScopeStack :=
  p.map (scopeAt all)

section Scopes

variable (all : List LocalVar)

theorem symbols_scopeAt (sc : OpenScope) :
    (scopeAt all sc).symbols = (earliest sc.own).map all.idxOf := by
  simp [scopeAt, Scope.symbols]

theorem get?_scopeAt (sc : OpenScope) (name : String) :
    (scopeAt all sc).get? name = (sc.own.find? (·.name = name)).map all.idxOf := by
  rw [← find?_earliest, Scope.get?, scopeAt]
  induction earliest sc.own with
  | nil => rfl
  | cons x xs ih =>
    rw [map_cons, lookup_cons, List.find?_cons]
    by_cases h : x.name = name
    · simp [h]
    · simp only [h, decide_false]
      rw [beq_false_of_ne (Ne.symm h)]
      exact ih

/-- Looking a name up in the scopes at a point finds the variable it stands for. -/
theorem lookup_scopes (p : Point) (name : String) :
    ScopeStack.lookup (p.scopes all) name = (p.lookup? name).map all.idxOf := by
  rw [ScopeStack.lookup, scopes, lookup?]
  induction p with
  | nil => rfl
  | cons sc outer ih =>
    rw [map_cons, List.findSome?_cons, List.findSome?_cons, get?_scopeAt]
    cases sc.own.find? (·.name = name) with
    | none => exact ih
    | some x => rfl

theorem scopes_cons (sc : OpenScope) (outer : Point) :
    scopes all (sc :: outer) = scopeAt all sc :: scopes all outer :=
  rfl

/-- A statement that declares nothing does not change the scopes. -/
theorem scopes_advance (hnext : p.next? = some s)
    (hdeclared : s.declared? = none) : p.advance.scopes all = p.scopes all := by
  obtain ⟨head, before, rest, outer, rfl⟩ := next?_eq_some hnext
  have hown := OpenScope.own_advance head before rest s
  rw [hdeclared, Option.toList_none, append_nil] at hown
  change scopeAt all _ :: _ = scopeAt all _ :: _
  rw [scopeAt, scopeAt, hown]

/-- A further variable gets an entry, unless its name is taken. -/
theorem insert?_scopeAt {sc' : OpenScope} (hhead : sc'.head.block = sc.head.block)
    (hown : sc'.own = sc.own ++ [x]) :
    ((scopeAt all sc).insert? x.name (all.idxOf x)).getD (scopeAt all sc) = scopeAt all sc' := by
  have hearliest := earliest_concat sc.own x
  rw [← hown] at hearliest
  rw [Scope.insert?, get?_scopeAt]
  cases hfind : sc.own.find? (·.name = x.name) with
  | none =>
    rw [hfind, if_pos rfl] at hearliest
    simp [scopeAt, hearliest, hhead]
  | some y =>
    rw [hfind, if_neg (by simp)] at hearliest
    simp [scopeAt, hearliest, hhead]

end Scopes

end Point

/-- The variables declared in the bodies of a program. -/
def Program.decls (p : Program) : List LocalVar :=
  p.bodies.flatMap (declsOfBlock none)

/-- The nodes of the expressions of a statement, outside the blocks in it. -/
def Stmt.exprIds : Stmt → List NodeId
  | .varDecl d => Expr.idsOf? d.init
  | .assign _ left value => left.ids ++ value.ids
  | .call _ c => c.ids
  | .ifElse _ cond _ _ => cond.ids
  | .whileLoop _ cond _ => cond.ids
  | .forIn _ _ _ iter _ => iter.ids
  | .ret _ value => Expr.idsOf? value
  | .defer _ c => c.ids
  | .block _ => []
  | .cleanup _ => []

namespace Point

/-- The nodes of the expressions of the statement behind a point. -/
def exprIds (p : Point) : List NodeId :=
  p.next?.elim [] Stmt.exprIds

/-- The entries for the variables that the statement behind a point reads. -/
def answers (all : List LocalVar) (p : Point) : List (NodeId × SymbolId) :=
  p.vars.filterMap fun v => (p.lookup? v.2.name).map fun x => (v.1, all.idxOf x)

/-- The errors for the variables behind a point that stand for nothing. -/
def undeclared (p : Point) : List TypingError :=
  (p.vars.filter fun v => (p.lookup? v.2.name).isNone).map undeclaredError

/-- At the end of a block, the entry for the variables of the block. -/
def closing? (all : List LocalVar) : Point → Option (NodeId × List SymbolId)
  | ⟨head, before, []⟩ :: _ =>
    some (head.block, (earliest (OpenScope.own ⟨head, before, []⟩)).map all.idxOf)
  | _ => none

theorem closing?_eq_none (all : List LocalVar) (h : p.next? = some s) :
    p.closing? all = none := by
  obtain ⟨head, before, rest, outer, rfl⟩ := next?_eq_some h
  rfl

end Point

/-- What a statement assigns to. -/
def Stmt.target? : Stmt → Option Expr
  | .assign _ left _ => some left
  | _ => none

/-- The variable that a statement declares itself, and whether it is a constant.  The variable of
a loop never is. -/
def Stmt.introduces? : Stmt → Option (LocalVar × Bool)
  | .varDecl d => some (d.toLocal, d.type.isConst)
  | .forIn id _ var _ _ => some (⟨id, var.name⟩, false)
  | _ => none

namespace Point

/-- The variable that the statement behind a point declares, and whether it is a constant. -/
def introduces? (q : Point) : Option (LocalVar × Bool) :=
  q.next?.bind Stmt.introduces?

/-- Whether a name stands for one of the constants at a point. -/
def isConst (constants : List LocalVar) (q : Point) (name : String) : Bool :=
  (q.lookup? name).any fun x => decide (x ∈ constants)

/-- What the statement behind a point assigns to. -/
def target? (q : Point) : Option Expr :=
  q.next?.bind Stmt.target?

theorem target?_eq (h : q.next? = some s) : q.target? = s.target? := by
  rw [target?, h, Option.bind_some]

/-- What is wrong with the target of the assignment behind a point. -/
def targetErrors (constants : List LocalVar) (q : Point) : List TypingError :=
  q.target?.elim [] (Expr.targetErrors (q.isConst constants))

end Point

/-- The points of the bodies of a program. -/
def Program.points (p : Program) : List Point :=
  p.bodies.flatMap Block.points

/-- The variables that the statements behind points declare, each with whether it is a
constant. -/
def introduced (points : List Point) : List (LocalVar × Bool) :=
  points.filterMap Point.introduces?

theorem introduced_append (points points' : List Point) :
    introduced (points ++ points') = introduced points ++ introduced points' :=
  filterMap_append

theorem introduced_cons (h : q.next? = some s) (points : List Point) :
    introduced (q :: points) = s.introduces?.toList ++ introduced points := by
  rw [introduced, filterMap_cons, Point.introduces?, h, Option.bind_some]
  cases s.introduces? <;> rfl

section Introduced

open Point (pointsIn pointsOf pointsAmong)

mutual

/-- The points in a statement introduce what the statement declares. -/
theorem map_fst_introduced (s : Stmt) {here : Point} (hnext : here.next? = some s) :
    (introduced (here :: pointsIn here s)).map Prod.fst = s.decls := by
  rw [introduced_cons hnext, map_append]
  match s with
  | .varDecl d | .assign _ _ _ | .call _ _ | .ret _ _ | .defer _ _ | .cleanup _ => rfl
  | .block body => exact map_fst_introduced_block body
  | .ifElse _ _ thenBody none => exact map_fst_introduced_block thenBody
  | .ifElse _ _ thenBody (some elseBody) =>
    rw [pointsIn, introduced_append, map_append, map_fst_introduced_block thenBody,
      map_fst_introduced_block elseBody]
    rfl
  | .whileLoop _ _ body => exact map_fst_introduced_block body
  | .forIn id _ var _ body =>
    -- the loop introduces its variable itself
    rw [Stmt.decls, declsOfBlock_some]
    exact congrArg (_ :: ·) (map_fst_introduced_block body)

theorem map_fst_introduced_block (b : BlockOf Stmt) {outer : Point} {kind : ScopeKind}
    {loopVar : Option LocalVar} :
    (introduced (pointsOf outer kind loopVar b)).map Prod.fst = declsOfBlock none b := by
  match b with
  | ⟨id, span, stmts⟩ =>
    rw [pointsOf, introduced_append, map_append, map_fst_introduced_stmts stmts]
    exact append_nil _

theorem map_fst_introduced_stmts (ss : List Stmt) {outer : Point} {head : ScopeHead}
    {before after : List Stmt} :
    (introduced (pointsAmong outer head before after ss)).map Prod.fst = declsOfStmts ss := by
  match ss with
  | [] => rfl
  | s :: ss =>
    rw [pointsAmong, ← cons_append, introduced_append, map_append, declsOfStmts]
    exact congrArg₂ _ (map_fst_introduced s rfl) (map_fst_introduced_stmts ss)

end

theorem map_fst_introduced_bodies (bodies : List Block) :
    (introduced (bodies.flatMap Block.points)).map Prod.fst =
      bodies.flatMap (declsOfBlock none) := by
  induction bodies with
  | nil => rfl
  | cons body bodies ih =>
    rw [flatMap_cons, introduced_append, map_append, ih, flatMap_cons]
    exact congrArg (· ++ _) (map_fst_introduced_block body)

theorem map_fst_introduced_points (p : Program) : (introduced p.points).map Prod.fst = p.decls :=
  map_fst_introduced_bodies p.bodies

end Introduced

/-- The constants among variables. -/
def constantsOf (flagged : List (LocalVar × Bool)) : List LocalVar :=
  flagged.filterMap fun x => if x.2 then some x.1 else none

theorem mem_constantsOf {flagged : List (LocalVar × Bool)} :
    x ∈ constantsOf flagged ↔ (x, true) ∈ flagged := by
  simp [constantsOf]

/-- The flag at the place of a variable is the flag of the variable. -/
theorem flag_of_place {flagged : List (LocalVar × Bool)} (hall : (flagged.map Prod.fst).Nodup)
    {y : LocalVar} {flag : Bool} (h : flagged[(flagged.map Prod.fst).idxOf x]? = some (y, flag)) :
    flag = decide (x ∈ constantsOf flagged) := by
  have hlt := (List.getElem?_eq_some_iff.1 h).1
  rw [← length_map Prod.fst, idxOf_lt_length_iff] at hlt
  have hfst := List.getElem?_idxOf hlt
  rw [List.getElem?_map, h] at hfst
  obtain rfl : y = x := Option.some.inj hfst
  have hmem := mem_of_getElem? h
  rw [decide_eq_decide.2 mem_constantsOf]
  cases flag with
  | true => exact (decide_eq_true hmem).symm
  | false =>
    refine (decide_eq_false fun htrue => ?_).symm
    have hsame := inj_on_of_nodup_map hall hmem htrue rfl
    exact Bool.false_ne_true (congrArg Prod.snd hsame)

/-- The variables of a program that are declared as constants. -/
def Program.constants (p : Program) : List LocalVar :=
  constantsOf (introduced p.points)

/-- Elements that share something in lists without repetition are the same. -/
theorem eq_of_nodup_flatMap {α β : Type} {l : List α} {f : α → List β} (h : (l.flatMap f).Nodup)
    {x y : α} (hx : x ∈ l) (hy : y ∈ l) {a : β} (hax : a ∈ f x) (hay : a ∈ f y) : x = y := by
  have hsymm : Std.Symm (Function.onFun List.Disjoint f) := ⟨fun _ _ h _ hb ha => h ha hb⟩
  by_contra hne
  exact (nodup_flatMap.1 h).2.forall hx hy hne hax hay

section Warnings

/-- The variables that a statement reads itself: all but a plain variable that is assigned to. -/
def Stmt.reads : Stmt → List (NodeId × Ident)
  | .assign _ left value => left.readVars ++ value.vars
  | s => s.vars

/-- The variable that a statement declares without an initializer. -/
def Stmt.blank? : Stmt → Option LocalVar
  | .varDecl d => if d.init.isNone then some d.toLocal else none
  | _ => none

theorem Stmt.exists_of_blank? (h : s.blank? = some x) :
    ∃ d, s = .varDecl d ∧ d.init.isNone ∧ d.toLocal = x := by
  cases s with
  | varDecl d =>
    rw [Stmt.blank?, Option.ite_none_right_eq_some] at h
    exact ⟨d, rfl, h.1, Option.some.inj h.2⟩
  | _ => contradiction

/-- The variable that a symbol was made for. -/
def Symbol.toLocal (symbol : Symbol) : LocalVar :=
  ⟨symbol.decl, symbol.name⟩

/-- Whether one of the points declares a variable without an initializer. -/
def declaresBlank (points : List Point) (x : LocalVar) : Bool :=
  points.any fun q => q.next?.bind Stmt.blank? = some x

/-- One of the points declares a variable, which is not the variable of a loop. -/
def DeclaresLocal (points : List Point) (x : LocalVar) : Prop :=
  ∃ q ∈ points, ∃ d, q.next? = some (.varDecl d) ∧ d.toLocal = x

theorem declaresLocal_of_blank {points : List Point} (h : declaresBlank points x = true) :
    DeclaresLocal points x := by
  obtain ⟨q, hq, hblank⟩ := any_eq_true.1 h
  obtain ⟨s, hnext, hs⟩ := Option.bind_eq_some_iff.1 (of_decide_eq_true hblank)
  obtain ⟨d, rfl, -, hd⟩ := Stmt.exists_of_blank? hs
  exact ⟨q, hq, d, hnext, hd⟩

/-- Whether nothing is stored in a symbol where it is declared: it has no initializer, and its type
is no class. -/
def Symbol.startsUnset (points : List Point) (symbol : Symbol) : Bool :=
  declaresBlank points symbol.toLocal && symbol.type.className?.isNone

namespace Point

/-- The variables that the statement behind a point reads. -/
def reads (q : Point) : List (NodeId × Ident) :=
  q.next?.elim [] Stmt.reads

/-- Whether a variable expression of the statement behind a point stands for a variable. -/
def mentions (x : LocalVar) (q : Point) : Bool :=
  q.vars.any fun v => q.lookup? v.2.name = some x

/-- The name under which the statement behind a point stores something. -/
def stored? (q : Point) : Option Ident :=
  q.target?.bind Expr.asVar?

/-- Whether the statement behind a point assigns to a variable that is no constant. -/
def stores (constants : List LocalVar) (x : LocalVar) (q : Point) : Bool :=
  q.stored?.any fun name => q.lookup? name.name = some x && x ∉ constants

/-- What is not visible at a point is neither mentioned nor stored to there. -/
theorem silent_of_not_visible (hx : x ∉ q.visible)
    (constants : List LocalVar) : q.mentions x = false ∧ q.stores constants x = false := by
  have hlookup (name : String) : q.lookup? name ≠ some x := fun h => hx (visible_of_lookup? h).1
  constructor
  · simp [mentions, hlookup]
  · cases h : q.stored? <;> simp [stores, h, hlookup]

/-- At the end of a block nothing is mentioned or stored to. -/
theorem silent_of_end (h : q.next? = none) (x : LocalVar) (constants : List LocalVar) :
    q.mentions x = false ∧ q.stores constants x = false := by
  simp [mentions, vars, stores, stored?, target?, h]

variable (points : List Point) (table : SymbolTable)

/-- Whether nothing is stored in a variable at a point, behind the points `before`. -/
def isUnset (before : List Point) (q : Point) (v : NodeId × Ident) : Bool :=
  (q.lookup? v.2.name).any fun x =>
    (table.get? (((introduced points).map Prod.fst).idxOf x)).any (Symbol.startsUnset points) &&
      !before.any (stores (constantsOf (introduced points)) x)

/-- The warnings about variables that are read behind a point before anything is stored in them. -/
def unsetErrors (before : List Point) (q : Point) : List TypingError :=
  (q.reads.filter (q.isUnset points table before)).map unsetError

/-- At the end of a block, the warnings about its variables that no variable expression behind the
points `seen` stands for. -/
def unusedErrors (seen : List Point) (q : Point) : List TypingError :=
  (q.closing? ((introduced points).map Prod.fst)).elim [] fun entry =>
    entry.2.filterMap fun id => (table.get? id).bind fun symbol =>
      Check.unusedError? { symbol with used := seen.any (mentions symbol.toLocal) }

/-- The warnings about local variables at a point, behind the points `before`. -/
def warnings (before : List Point) (q : Point) : List TypingError :=
  q.unsetErrors points table before ++ q.unusedErrors points table before

/-- What points say one after the other, each behind those before it. -/
def along {α : Type} (say : List Point → Point → List α) (before : List Point) :
    List Point → List α
  | [] => []
  | q :: points => say before q ++ along say (before ++ [q]) points

theorem along_append {α : Type} (say : List Point → Point → List α)
    (before points points' : List Point) :
    along say before (points ++ points') =
      along say before points ++ along say (before ++ points) points' := by
  induction points generalizing before with
  | nil => rw [append_nil]; rfl
  | cons q points ih =>
    rw [cons_append, along, along, ih, append_assoc, append_assoc]
    rfl

end Point

end Warnings

/-- Tables with the same declarations have the same symbols, up to what happened to them. -/
theorem SymbolTable.exists_of_bases {table' : SymbolTable} (h : table.bases <+: table'.bases)
    {id : SymbolId} {symbol : Symbol} (hsymbol : table.get? id = some symbol) :
    ∃ last, table'.get? id = some last ∧ last.base = symbol.base := by
  have hbase : table.bases[id]? = some symbol.base := by
    rw [get?] at hsymbol
    rw [bases, List.getElem?_map, hsymbol, Option.map_some]
  obtain ⟨more, hmore⟩ := h
  have hlast : table'.bases[id]? = some symbol.base := by
    rw [← hmore, List.getElem?_append_left (List.getElem?_eq_some_iff.1 hbase).1, hbase]
  rwa [bases, List.getElem?_map, Option.map_eq_some_iff] at hlast

namespace Checker

variable {P before points points' : List Point} {new : List (LocalVar × Bool)}
  {s s' s'' : Checker} {here : Point}

/-- What a symbol tells about the points in front of which it was made. -/
structure Notes (P before : List Point) (symbol : Symbol) : Prop where
  local_iff : symbol.kind = .local ↔ DeclaresLocal P symbol.toLocal
  used_eq : symbol.used = before.any (Point.mentions symbol.toLocal)
  initialized_eq : symbol.initialized = (!symbol.startsUnset P ||
    before.any (Point.stores (constantsOf (introduced P)) symbol.toLocal))

/-- Checking has reached a point in a program with the points `P`, behind those of `before`.  What
they introduce is declared, but for `new`. -/
structure At (P before : List Point) (new : List (LocalVar × Bool)) (s : Checker) (here : Point) :
    Prop where
  reached : before <+: P
  flagged_eq : s.flagged ++ new = introduced before
  scopes_eq : s.scopes = here.scopes ((introduced P).map Prod.fst)
  /-- What is visible was declared, also at earlier points. -/
  visible : ∀ q ∈ here :: before, ∀ x ∈ q.visible, x ∈ s.declared
  notes : ∀ symbol ∈ s.context.symbols.symbols, Notes P before symbol

namespace At

/-- What is declared comes first among the variables of the program. -/
theorem flagged_prefix (h : s.At P before new here) : s.flagged ++ new <+: introduced P := by
  rw [h.flagged_eq]
  exact h.reached.filterMap _

/-- The symbol with a number was made for the variable at that place. -/
theorem getElem?_introduced (h : s.At P before new here) {id : SymbolId} {symbol : Symbol}
    (hsymbol : s.context.symbols.get? id = some symbol) :
    (introduced P)[id]? = some (symbol.toLocal, symbol.isConst) := by
  have hflagged : s.flagged[id]? = some (symbol.toLocal, symbol.isConst) := by
    rw [SymbolTable.get?] at hsymbol
    rw [flagged, List.getElem?_map, hsymbol]
    rfl
  obtain ⟨more, hmore⟩ := h.flagged_prefix
  rw [← hmore, append_assoc,
    List.getElem?_append_left (List.getElem?_eq_some_iff.1 hflagged).1, hflagged]

section Distinct

variable (hall : ((introduced P).map Prod.fst).Nodup) {id : SymbolId} {symbol : Symbol}

include hall

theorem idxOf_eq (h : s.At P before new here) (hsymbol : s.context.symbols.get? id = some symbol) :
    ((introduced P).map Prod.fst).idxOf symbol.toLocal = id := by
  have hplace : ((introduced P).map Prod.fst)[id]? = some symbol.toLocal := by
    rw [List.getElem?_map, h.getElem?_introduced hsymbol]
    rfl
  obtain ⟨hlt, hget⟩ := List.getElem?_eq_some_iff.1 hplace
  rw [← hget, hall.idxOf_getElem id hlt]

/-- A variable that is visible has a symbol. -/
theorem exists_symbol (h : s.At P before new here) (hx : x ∈ here.visible) :
    ∃ symbol, s.context.symbols.get? (((introduced P).map Prod.fst).idxOf x) = some symbol ∧
      symbol.toLocal = x := by
  obtain ⟨symbol, hmem, rfl⟩ := mem_map.1 (h.visible here mem_cons_self x hx)
  obtain ⟨id, hsymbol⟩ := mem_iff_getElem?.1 hmem
  have hid := h.idxOf_eq hall hsymbol
  exact ⟨symbol, (congrArg s.context.symbols.get? hid).trans hsymbol, rfl⟩

/-- A name leads to a symbol if it stands for the variable of the symbol. -/
theorem lookup_eq_some_iff (h : s.At P before new here)
    (hsymbol : s.context.symbols.get? id = some symbol) (name : String) :
    s.scopes.lookup name = some id ↔ here.lookup? name = some symbol.toLocal := by
  have hid := h.idxOf_eq hall hsymbol
  have hmem : symbol.toLocal ∈ (introduced P).map Prod.fst :=
    mem_map.2 ⟨_, mem_of_getElem? (h.getElem?_introduced hsymbol), rfl⟩
  rw [h.scopes_eq, Point.lookup_scopes, Option.map_eq_some_iff]
  constructor
  · rintro ⟨x, hx, hsame⟩
    rw [hx, (idxOf_inj hmem).1 (hid.trans hsame.symm)]
  · exact fun hx => ⟨_, hx, hid⟩

theorem isConst_symbol (h : s.At P before new here)
    (hsymbol : s.context.symbols.get? id = some symbol) :
    symbol.isConst = decide (symbol.toLocal ∈ constantsOf (introduced P)) := by
  refine flag_of_place (y := symbol.toLocal) hall ?_
  rw [h.idxOf_eq hall hsymbol, h.getElem?_introduced hsymbol]

/-- A name stands for a constant if the variable that it stands for is one. -/
theorem isConst_eq (h : s.At P before new here) :
    s.isConst = here.isConst (constantsOf (introduced P)) := by
  funext name
  have hlookup := Point.lookup_scopes ((introduced P).map Prod.fst) here name
  rw [← h.scopes_eq] at hlookup
  rw [Checker.isConst, Point.isConst, hlookup]
  cases hvar : here.lookup? name with
  | none => rfl
  | some x =>
    obtain ⟨symbol, hsymbol, rfl⟩ := h.exists_symbol hall (Point.visible_of_lookup? hvar).1
    have hflag : s.flagged[((introduced P).map Prod.fst).idxOf symbol.toLocal]? =
        (s.context.symbols.get? (((introduced P).map Prod.fst).idxOf symbol.toLocal)).map
          fun symbol => (symbol.toLocal, symbol.isConst) := List.getElem?_map
    rw [Option.map_some, Option.bind_some, hflag, hsymbol]
    exact h.isConst_symbol hall hsymbol

/-- A variable lacks a value if nothing was stored in it at the points before. -/
theorem lacks_eq (h : s.At P before new here)
    (htable : s.context.symbols.bases <+: table.bases) : s.lacks = here.isUnset P table before := by
  funext v
  have hlookup := Point.lookup_scopes ((introduced P).map Prod.fst) here v.2.name
  rw [← h.scopes_eq] at hlookup
  rw [lacks, Point.isUnset, hlookup]
  cases hvar : here.lookup? v.2.name with
  | none => rfl
  | some x =>
    obtain ⟨symbol, hsymbol, rfl⟩ := h.exists_symbol hall (Point.visible_of_lookup? hvar).1
    obtain ⟨last, hlast, hbase⟩ := SymbolTable.exists_of_bases htable hsymbol
    have hunset : last.startsUnset P = symbol.startsUnset P := by
      change last.base.startsUnset P = symbol.base.startsUnset P
      rw [hbase]
    have hnotes := h.notes symbol (mem_of_getElem? hsymbol)
    rw [Option.map_some, Option.bind_some, hsymbol, Option.any_some, Option.any_some, hlast,
      Option.any_some, hunset, hnotes.initialized_eq, Bool.not_or, Bool.not_not]

/-- What nothing uses at the end of a block is what nothing mentions at the points before. -/
theorem unusedErrors_eq {head : ScopeHead} {body : List Stmt}
    (h : s.At P before new (⟨head, body, []⟩ :: here))
    (htable : s.context.symbols.bases <+: table.bases) :
    Check.unusedErrors s.context.symbols
        (Point.scopeAt ((introduced P).map Prod.fst) ⟨head, body, []⟩).symbols =
      Point.unusedErrors P table before (⟨head, body, []⟩ :: here) := by
  rw [Point.symbols_scopeAt]
  refine filterMap_congr fun id hid => ?_
  obtain ⟨x, hx, rfl⟩ := mem_map.1 hid
  have hvisible : x ∈ Point.visible (⟨head, body, []⟩ :: here) :=
    mem_append_right _ (mem_of_mem_earliest hx)
  obtain ⟨symbol, hsymbol, rfl⟩ := h.exists_symbol hall hvisible
  obtain ⟨last, hlast, hbase⟩ := SymbolTable.exists_of_bases htable hsymbol
  have hused := (h.notes symbol (mem_of_getElem? hsymbol)).used_eq
  rw [hsymbol, hlast, Option.bind_some, Option.bind_some]
  change Check.unusedError? { symbol.base with used := symbol.used } = Check.unusedError?
    { last.base with used := before.any (Point.mentions last.base.toLocal) }
  rw [hbase, hused]
  rfl

/-- Behind what the statement at a point reads and stores. -/
theorem of_reads (h : s.At P before [] here) {stmt : Stmt} (hnext : here.next? = some stmt)
    (hreached : before ++ [here] <+: P) {ids : List NodeId} {reads : List (NodeId × Ident)}
    {targets : List TypingError}
    (hreads : Reads ids stmt.vars reads (stmt.target?.bind Expr.asVar?).toList targets s s') :
    s'.At P (before ++ [here]) stmt.introduces?.toList here := by
  refine ⟨hreached, ?_, hreads.scopes_eq.trans h.scopes_eq, ?_, ?_⟩
  · rw [hreads.flagged_eq, introduced_append, ← h.flagged_eq, append_nil,
      introduced_cons hnext, introduced, filterMap_nil, append_nil]
  · intro q hq x hx
    rw [hreads.declared_eq]
    refine h.visible q ?_ x hx
    simpa [or_comm] using hq
  · intro symbol' hmem
    obtain ⟨id, hid⟩ := mem_iff_getElem?.1 hmem
    have htouch := hreads.symbols_eq id
    rw [SymbolTable.get?, hid, eq_comm, Option.map_eq_some_iff] at htouch
    obtain ⟨symbol, hsymbol, rfl⟩ := htouch
    have hnotes := h.notes symbol (mem_of_getElem? hsymbol)
    have hlookup := h.lookup_eq_some_iff hall hsymbol
    refine ⟨hnotes.local_iff, ?_, ?_⟩
    · change (symbol.used || _) = (before ++ [here]).any (Point.mentions symbol.toLocal)
      rw [any_append, hnotes.used_eq]
      simp [hlookup, Point.mentions, Point.vars_eq hnext]
    · change (symbol.initialized || _) = (!symbol.startsUnset P || (before ++ [here]).any
        (Point.stores (constantsOf (introduced P)) symbol.toLocal))
      have hstored : here.stored? = stmt.target?.bind Expr.asVar? := by
        rw [Point.stored?, Point.target?_eq hnext]
      rw [any_append, hnotes.initialized_eq, h.isConst_symbol hall hsymbol]
      simp only [any_cons, any_nil, Bool.or_false, Point.stores, hstored]
      cases stmt.target?.bind Expr.asVar? with
      | none => simp
      | some name => simp [hlookup, Bool.and_comm, Bool.or_assoc]

end Distinct

/-- Behind a statement that declares nothing here the scopes are those in front of it. -/
theorem advance (h : s.At P before new here) {stmt : Stmt} (hnext : here.next? = some stmt)
    (hstmt : stmt.declared? = none) : s.At P before new here.advance := by
  refine ⟨h.reached, h.flagged_eq, h.scopes_eq.trans (Point.scopes_advance _ hnext hstmt).symm, ?_,
    h.notes⟩
  have hvisible : here.advance.visible = here.visible := by
    rw [Point.visible_advance_of_next hnext, hstmt, Option.toList_none, append_nil]
  refine forall_mem_cons.2 ⟨?_, fun q hq => h.visible q (mem_cons_of_mem _ hq)⟩
  rw [hvisible]
  exact h.visible here mem_cons_self

end At

/-- From one state to the other the tables and the errors grew by what points say, behind those of
`before`. -/
structure Tells (P before points : List Point) (s s' : Checker) : Prop where
  bases : s.context.symbols.bases <+: s'.context.symbols.bases
  resolutions_eq : s'.context.resolutions =
    (points.flatMap (Point.answers ((introduced P).map Prod.fst))).reverse ++ s.context.resolutions
  scopeLocals_eq : s'.context.scopeLocals =
    (points.filterMap (Point.closing? ((introduced P).map Prod.fst))).reverse ++
      s.context.scopeLocals
  kept : ∀ id ∈ s.context.exprTypes.map Prod.fst, id ∈ s'.context.exprTypes.map Prod.fst
  typed : ∀ p ∈ points, ∀ id ∈ p.exprIds, id ∈ s'.context.exprTypes.map Prod.fst
  undeclared_eq : undeclaredIn s'.errors =
    undeclaredIn s.errors ++ points.flatMap Point.undeclared
  targets_eq : targetErrorsIn s'.errors =
    targetErrorsIn s.errors ++ points.flatMap (Point.targetErrors (constantsOf (introduced P)))
  /-- What is warned about depends on what the declarations say, and those stay as they are. -/
  warnings_eq : ∀ table : SymbolTable, s'.context.symbols.bases <+: table.bases →
    localWarningsIn s'.errors =
      localWarningsIn s.errors ++ Point.along (Point.warnings P table) before points

/-- Points lead from one state to another, which has reached the point `here`. -/
def Leads (P before points : List Point) (new : List (LocalVar × Bool)) (s s' : Checker)
    (here : Point) : Prop :=
  Tells P before points s s' ∧ s'.At P (before ++ points) new here

namespace Tells

theorem trans (h : Tells P before points s s') (h' : Tells P (before ++ points) points' s' s'') :
    Tells P before (points ++ points') s s'' := by
  constructor
  · exact h.bases.trans h'.bases
  · rw [h'.resolutions_eq, h.resolutions_eq, flatMap_append, reverse_append, append_assoc]
  · rw [h'.scopeLocals_eq, h.scopeLocals_eq, filterMap_append, reverse_append, append_assoc]
  · exact fun id hid => h'.kept id (h.kept id hid)
  · intro p hp id hid
    rcases mem_append.1 hp with hp | hp
    · exact h'.kept id (h.typed p hp id hid)
    · exact h'.typed p hp id hid
  · rw [h'.undeclared_eq, h.undeclared_eq, flatMap_append, append_assoc]
  · rw [h'.targets_eq, h.targets_eq, flatMap_append, append_assoc]
  · intro table htable
    rw [h'.warnings_eq table htable, h.warnings_eq table (h'.bases.trans htable),
      Point.along_append, append_assoc]

theorem leads (h : Tells P before points s s')
    (h' : Leads P (before ++ points) points' new s' s'' here) :
    Leads P before (points ++ points') new s s'' here := by
  refine ⟨h.trans h'.1, ?_⟩
  rw [← append_assoc]
  exact h'.2

/-- A step that reads and closes nothing says nothing about points. -/
theorem of_quiet (h : Reads [] [] [] [] [] s s') : Tells P before [] s s' :=
  ⟨h.bases_eq ▸ prefix_refl _, h.resolutions_eq, h.scopeLocals_eq, fun _ => h.kept,
    fun _ hp => by contradiction, h.undeclared_eq, h.targets_eq, fun _ _ => h.warnings_eq⟩

/-- What the statement behind a point reads itself is answered by the scopes at the point, and its
target is judged there. -/
theorem of_reads (hall : ((introduced P).map Prod.fst).Nodup) {stmt : Stmt}
    (hnext : here.next? = some stmt) (hat : s.At P before [] here) {stored : List Ident}
    (h : Reads stmt.exprIds stmt.vars stmt.reads stored
      (stmt.target?.elim [] (Expr.targetErrors (here.isConst (constantsOf (introduced P))))) s s') :
    Tells P before [here] s s' := by
  have hvars : here.vars = stmt.vars := Point.vars_eq hnext
  have hclosing := Point.closing?_eq_none ((introduced P).map Prod.fst) hnext
  constructor
  · exact h.bases_eq ▸ prefix_refl _
  · rw [h.resolutions_eq, resolved, hat.scopes_eq, flatMap_singleton, Point.answers, hvars]
    simp only [Point.lookup_scopes, Option.map_map]
    rfl
  · rw [h.scopeLocals_eq, filterMap_cons, hclosing]
    rfl
  · exact fun _ => h.kept
  · intro q hq id hid
    rw [mem_singleton.1 hq, Point.exprIds, hnext] at hid
    exact h.typed hid
  · rw [h.undeclared_eq, flatMap_singleton, Point.undeclared, hvars, hat.scopes_eq]
    simp only [Point.lookup_scopes, Option.isNone_map]
  · rw [h.targets_eq, flatMap_singleton, Point.targetErrors, Point.target?_eq hnext]
  · intro table htable
    rw [h.bases_eq] at htable
    rw [h.warnings_eq, hat.lacks_eq hall htable, Point.along, Point.along, Point.warnings,
      Point.unsetErrors, Point.reads, hnext, Point.unusedErrors, hclosing]
    simp

end Tells

end Checker

namespace Check

open Checker (Reads At Tells Leads)
open Point (pointsIn pointsOf pointsAmong)

variable {P : List Point} (hall : ((introduced P).map Prod.fst).Nodup)

section Steps

variable {c : Checker} {before points points' : List Point} {here outer : Point}

/-- What comes first is a prefix too. -/
theorem first_points (h : before ++ (points ++ points') <+: P) : before ++ points <+: P :=
  ((prefix_append_right_inj before).2 (prefix_append points points')).trans h

theorem rest_points (h : before ++ (points ++ points') <+: P) :
    before ++ points ++ points' <+: P := by
  rwa [append_assoc]

/-- The next variable gets the number of the variables before it. -/
theorem idxOf_of_declared {all declared : List LocalVar} (hall : all.Nodup)
    (h : declared ++ [x] <+: all) : x ∉ declared ∧ all.idxOf x = declared.length := by
  obtain ⟨more, rfl⟩ := h
  have hx : x ∉ declared := by
    rw [append_assoc] at hall
    intro hx
    exact disjoint_of_nodup_append hall hx (by simp)
  rw [append_assoc, idxOf_append_of_notMem hx]
  simp [hx]

theorem tells_declare (name : Ident) (type : Ty) (kind : SymbolKind) (decl : NodeId)
    (isConst initialized : Bool) (c : Checker) :
    Tells P before [] c ((declare name type kind decl isConst initialized).run c).2 := by
  obtain ⟨errors, hrun, -, hundeclared, htargets, hwarnings⟩ :=
    run_declare name type kind decl isConst initialized c
  rw [hrun]
  refine ⟨?_, rfl, rfl, fun _ h => h, fun _ hp => by contradiction,
    hundeclared.trans (append_nil _).symm, htargets.trans (append_nil _).symm,
    fun _ _ => hwarnings.trans (append_nil _).symm⟩
  exact ⟨_, map_append.symm⟩

include hall

/-- A declaration leads to the scopes with its variable.  No point before it knows the variable. -/
theorem at_declare {name : Ident} {type : Ty} {kind : SymbolKind} {decl : NodeId}
    {isConst initialized : Bool} {sc' : OpenScope}
    (hat : c.At P before [(⟨decl, name.name⟩, isConst)] (sc :: outer))
    (hhead : sc'.head.block = sc.head.block) (hown : sc'.own = sc.own ++ [⟨decl, name.name⟩])
    (hkind : kind = .local ↔ DeclaresLocal P ⟨decl, name.name⟩)
    (hinit : initialized =
      !(declaredSymbol name type kind decl isConst initialized).startsUnset P) :
    ((declare name type kind decl isConst initialized).run c).2.At P before [] (sc' :: outer) := by
  have hprefix := hat.flagged_prefix.map Prod.fst
  rw [map_append, Checker.map_fst_flagged] at hprefix
  obtain ⟨hnew, hidx⟩ := idxOf_of_declared hall hprefix
  have hsilent {q : Point} (hq : q ∈ before) := Point.silent_of_not_visible
    (fun hx => hnew (hat.visible q (mem_cons_of_mem _ hq) _ hx)) (constantsOf (introduced P))
  obtain ⟨errors, hrun, -⟩ := run_declare name type kind decl isConst initialized c
  have hdeclared := (walks_declare name type kind decl isConst initialized c).declared_eq
  refine ⟨hat.reached, ?_, ?_, ?_, ?_⟩
  · rw [hrun, append_nil, ← hat.flagged_eq]
    exact map_append
  · rw [hrun]
    change declaredIn name.name c.declared.length c.scopes = _
    rw [hat.scopes_eq, Point.scopes_cons, Point.scopes_cons, ← hidx, declaredIn]
    exact congrArg (· :: _) (Point.insert?_scopeAt _ hhead hown)
  · rw [hdeclared]
    refine forall_mem_cons.2 ⟨fun x hx => ?_, fun q hq x hx =>
      mem_append_left _ (hat.visible q (mem_cons_of_mem _ hq) x hx)⟩
    rw [Point.visible, hown, ← append_assoc] at hx
    exact mem_append.2 ((mem_append.1 hx).imp_left (hat.visible _ mem_cons_self x))
  · rw [hrun]
    refine forall_mem_append.2 ⟨hat.notes, forall_mem_singleton.2 ⟨hkind, ?_, ?_⟩⟩
    · exact (any_eq_false.2 fun q hq => Bool.eq_false_iff.1 (hsilent hq).1).symm
    · have hstores := any_eq_false.2 fun q hq => Bool.eq_false_iff.1 (hsilent (q := q) hq).2
      exact hinit.trans ((Bool.or_false _).symm.trans (congrArg (_ || ·) hstores.symm))

/-- The variable of a loop, which is no constant. -/
def loopFlag (loopVar : Option (NodeId × Ident)) : List (LocalVar × Bool) :=
  (loopLocal loopVar).toList.map fun x => (x, false)

/-- At the start of a block its scope is open, with the variable of its loop. -/
theorem leads_entered (loopVar : Option (NodeId × Ident)) (id : NodeId) (span : Span)
    (kind : ScopeKind) (body : List Stmt) (hat : c.At P before (loopFlag loopVar) here)
    (hloop : ∀ x ∈ loopLocal loopVar, ¬DeclaresLocal P x) :
    Leads P before [] [] c (entered loopVar id c)
      (⟨⟨id, span, kind, loopLocal loopVar⟩, [], body⟩ :: here) := by
  rw [Leads, append_nil]
  have hopened : At P before (loopFlag loopVar) { c with scopes := { block := id } :: c.scopes }
      (⟨⟨id, span, kind, none⟩, [], body⟩ :: here) := by
    refine ⟨hat.reached, hat.flagged_eq, ?_, ?_, hat.notes⟩
    · change { block := id } :: c.scopes = _
      rw [hat.scopes_eq]
      rfl
    · refine forall_mem_cons.2 ⟨?_, fun q hq => hat.visible q (mem_cons_of_mem _ hq)⟩
      rw [Point.visible]
      exact forall_mem_append.2 ⟨hat.visible here mem_cons_self, by simp [OpenScope.own]⟩
  cases loopVar with
  | none =>
    have hquiet : Tells P before [] c c := .of_quiet (.refl c)
    exact ⟨{ hquiet with }, hopened⟩
  | some var =>
    have h : Tells P before [] { c with scopes := { block := id } :: c.scopes } _ :=
      tells_declare var.2 .int .loopVar var.1 false true _
    have hloop : ¬DeclaresLocal P ⟨var.1, var.2.name⟩ := hloop _ rfl
    refine ⟨{ h with }, at_declare hall hopened rfl rfl (iff_of_false (by decide) hloop) ?_⟩
    have hblank := Bool.eq_false_iff.2 fun hblank => hloop (declaresLocal_of_blank hblank)
    rw [Symbol.startsUnset, Symbol.toLocal, declaredSymbol, hblank]
    rfl

/-- At the end of a block its variables are recorded, and what nothing mentions is reported. -/
theorem leads_closeScope {head : ScopeHead} {body : List Stmt}
    (hat : c.At P before [] (⟨head, body, []⟩ :: here))
    (hreached : before ++ [⟨head, body, []⟩ :: here] <+: P) :
    Leads P before [⟨head, body, []⟩ :: here] [] c (closeScope.run c).2 here := by
  rw [run_closeScope (hat.scopes_eq.trans (Point.scopes_cons _ _ here))]
  obtain ⟨hundeclared, htargets, hwarnings⟩ := errors_append_unused c.errors c.context.symbols
    (Point.scopeAt ((introduced P).map Prod.fst) ⟨head, body, []⟩).symbols
  refine ⟨⟨prefix_refl _, rfl, ?_, fun _ h => h, ?_, ?_, ?_, ?_⟩, ?_⟩
  · rw [Point.symbols_scopeAt]
    rfl
  · exact forall_mem_singleton.2 fun _ hid => by contradiction
  · exact hundeclared.trans (append_nil _).symm
  · exact htargets.trans (append_nil _).symm
  · intro table htable
    refine hwarnings.trans (congrArg _ ?_)
    rw [hat.unusedErrors_eq hall htable]
    exact (append_nil _).symm
  · refine ⟨hreached, ?_, rfl, ?_, fun symbol hsymbol => ?_⟩
    · rw [introduced_append, ← hat.flagged_eq]
      exact (append_nil _).symm
    · intro q hq x hx
      rw [mem_cons, mem_append, mem_singleton] at hq
      rcases hq with rfl | hq | rfl
      · exact hat.visible _ mem_cons_self x (mem_append_left _ hx)
      · exact hat.visible q (mem_cons_of_mem _ hq) x hx
      · exact hat.visible _ mem_cons_self x hx
    · obtain ⟨hlocal, hused, hinitialized⟩ := hat.notes symbol hsymbol
      have hsilent := Point.silent_of_end (q := ⟨head, body, []⟩ :: here) rfl symbol.toLocal
        (constantsOf (introduced P))
      refine ⟨hlocal, ?_, ?_⟩
      · rw [hused, any_append]
        simp [hsilent]
      · rw [hinitialized, any_append]
        simp [hsilent]

end Steps

section Statements

include hall in
/-- A variable is declared where it is introduced, and nowhere else. -/
theorem eq_of_declared {here q : Point} (hhere : here ∈ P) (hnext : here.next? = some s)
    {flag : Bool} (hs : s.introduces? = some (x, flag)) (hq : q ∈ P) {d : VarDecl}
    (hd : q.next? = some (.varDecl d)) (hx : d.toLocal = x) : s = .varDecl d := by
  have hflat : (introduced P).map Prod.fst =
      P.flatMap fun q => q.introduces?.toList.map Prod.fst := by
    rw [introduced, filterMap_eq_flatMap_toList, map_flatMap]
  rw [hflat] at hall
  obtain rfl : q = here := eq_of_nodup_flatMap hall hq hhere (a := x)
    (by simp [Point.introduces?, hd, Stmt.introduces?, hx])
    (by simp [Point.introduces?, hnext, hs])
  exact Option.some.inj (hnext.symm.trans hd)

mutual

/-- Checking a statement adds to the tables and the errors what the points in it say. -/
theorem leads_stmt (hall : ((introduced P).map Prod.fst).Nodup) (s : Stmt) {c : Checker}
    {before : List Point} {here : Point} (hnext : here.next? = some s) (hat : c.At P before [] here)
    (hpoints : before ++ ([here] ++ pointsIn here s) <+: P) :
    Leads P before ([here] ++ pointsIn here s) [] c ((stmt s).run c).2 here.advance := by
  -- what the statement reads itself is read at the point in front of it
  have hreached := first_points hpoints
  have hhere {c' : Checker} (hreads : Reads s.exprIds s.vars s.reads
      (s.target?.bind Expr.asVar?).toList
      (s.target?.elim [] (Expr.targetErrors (here.isConst (constantsOf (introduced P))))) c c') :
      Leads P before [here] s.introduces?.toList c c' here :=
    ⟨.of_reads hall hnext hat hreads, hat.of_reads hall hnext hreached hreads⟩
  match s with
  | .varDecl d =>
    obtain ⟨c₁, type, hreads, hrun⟩ := declaresAfter_varDecl d c
    have hstmt : ((stmt (.varDecl d)).run c).2 = _ := hrun
    obtain ⟨htells, hat₁⟩ := hhere hreads
    have hmem : here ∈ P := hreached.subset (by simp)
    have hblank : declaresBlank P d.toLocal = d.init.isNone := by
      rw [Bool.eq_iff_iff]
      refine ⟨fun h => ?_, fun h => any_eq_true.2 ⟨here, hmem, by simp [hnext, Stmt.blank?, h]⟩⟩
      obtain ⟨q, hq, hs⟩ := any_eq_true.1 h
      obtain ⟨s, hs, hblank⟩ := Option.bind_eq_some_iff.1 (of_decide_eq_true hs)
      obtain ⟨d', rfl, hinit, hd⟩ := Stmt.exists_of_blank? hblank
      cases eq_of_declared hall hmem hnext rfl hq hs hd
      exact hinit
    rw [hstmt]
    refine ⟨htells.trans (tells_declare _ _ _ _ _ _ c₁), ?_⟩
    obtain ⟨head, before, rest, outer, rfl⟩ := Point.next?_eq_some hnext
    refine at_declare hall hat₁ rfl (OpenScope.own_advance head before rest (.varDecl d))
      (iff_of_true rfl ⟨_, hmem, d, rfl, rfl⟩) ?_
    change _ = !(declaresBlank P d.toLocal && type.className?.isNone)
    rw [hblank, Bool.not_and, Option.not_isNone, Option.not_isNone]
  | .assign _ left value =>
    have hreads := reads_assignment left value c
    rw [hat.isConst_eq hall] at hreads
    exact (hhere hreads).imp_right fun h => h.advance hnext rfl
  | .call _ call =>
    exact (hhere (readsVars_call call false c)).imp_right fun h => h.advance hnext rfl
  | .defer _ call =>
    exact (hhere (readsVars_call call true c)).imp_right fun h => h.advance hnext rfl
  | .ret _ none => exact (hhere (.refl c)).imp_right fun h => h.advance hnext rfl
  | .ret _ (some value) =>
    exact (hhere (readsVars_returned value c)).imp_right fun h => h.advance hnext rfl
  | .cleanup _ => exact (hhere (.refl c)).imp_right fun h => h.advance hnext rfl
  | .block body =>
    have hstart := hhere (.refl c)
    have hbody := leads_block hall .block none body (by simp [loopLocal]) hstart.2
      (rest_points hpoints)
    exact (hstart.1.leads hbody).imp_right fun h => h.advance hnext rfl
  | .ifElse _ cond thenBody none =>
    have hcond := hhere (readsVars_condition "if" cond c)
    have hthen := leads_block hall .thenBranch none thenBody (by simp [loopLocal]) hcond.2
      (rest_points hpoints)
    exact (hcond.1.leads hthen).imp_right fun h => h.advance hnext rfl
  | .ifElse _ cond thenBody (some elseBody) =>
    have hcond := hhere (readsVars_condition "if" cond c)
    have hrest := rest_points hpoints
    have hthen := leads_block hall .thenBranch none thenBody (by simp [loopLocal]) hcond.2
      (first_points hrest)
    have helse := leads_block hall .elseBranch none elseBody (by simp [loopLocal]) hthen.2
      (rest_points hrest)
    exact (hcond.1.leads (hthen.1.leads helse)).imp_right fun h => h.advance hnext rfl
  | .whileLoop _ cond body =>
    have hcond := hhere (readsVars_condition "while" cond c)
    have hbody := leads_block hall .whileBody none body (by simp [loopLocal]) hcond.2
      (rest_points hpoints)
    exact (hcond.1.leads hbody).imp_right fun h => h.advance hnext rfl
  | .forIn id _ var iter body =>
    have hiter := hhere (readsVars_iterated iter c)
    have hloop : ¬DeclaresLocal P ⟨id, var.name⟩ := by
      rintro ⟨q, hq, d, hd, hx⟩
      cases eq_of_declared hall (hreached.subset (by simp)) hnext rfl hq hd hx
    have hbody := leads_block hall .forBody (some (id, var)) body
      (by simpa [loopLocal] using hloop) hiter.2 (rest_points hpoints)
    exact (hiter.1.leads hbody).imp_right fun h => h.advance hnext rfl

theorem leads_block (hall : ((introduced P).map Prod.fst).Nodup) (kind : ScopeKind)
    (loopVar : Option (NodeId × Ident)) (b : BlockOf Stmt)
    (hloop : ∀ x ∈ loopLocal loopVar, ¬DeclaresLocal P x) {c : Checker}
    {before : List Point} {here : Point} (hat : c.At P before (loopFlag loopVar) here)
    (hpoints : before ++ pointsOf here kind (loopLocal loopVar) b <+: P) :
    Leads P before (pointsOf here kind (loopLocal loopVar) b) [] c ((block loopVar b).run c).2
      here := by
  match b with
  | ⟨id, span, body⟩ =>
    rw [pointsOf] at hpoints ⊢
    rw [run_block]
    obtain ⟨hentered, hat₁⟩ :=
      leads_entered hall loopVar id span kind (body ++ []) hat hloop
    rw [append_nil] at hat₁
    obtain ⟨hbody, hat₂⟩ := leads_stmts hall body hat₁ (first_points hpoints)
    have hclose := leads_closeScope hall hat₂ (rest_points hpoints)
    exact hentered.leads (by rw [append_nil]; exact hbody.leads hclose)

theorem leads_stmts (hall : ((introduced P).map Prod.fst).Nodup) (ss : List Stmt) {c : Checker}
    {before : List Point} {outer : Point} {head : ScopeHead} {stmtsBefore after : List Stmt}
    (hat : c.At P before [] (⟨head, stmtsBefore, ss ++ after⟩ :: outer))
    (hpoints : before ++ pointsAmong outer head stmtsBefore after ss <+: P) :
    Leads P before (pointsAmong outer head stmtsBefore after ss) [] c ((stmts ss).run c).2
      (⟨head, stmtsBefore ++ ss, after⟩ :: outer) := by
  match ss with
  | [] =>
    rw [append_nil]
    exact ⟨.of_quiet (.refl c), (append_nil before).symm ▸ hat⟩
  | s :: ss =>
    rw [pointsAmong, ← cons_append] at hpoints ⊢
    obtain ⟨hfirst, hat₁⟩ := leads_stmt hall s rfl hat (first_points hpoints)
    have hrest := leads_stmts hall ss hat₁ (rest_points hpoints)
    rw [append_assoc] at hrest
    exact hfirst.leads hrest

end

end Statements

include hall in
theorem leads_bodies (bodies : List Block) {c : Checker} {before : List Point}
    (hat : c.At P before [] []) (hpoints : before ++ bodies.flatMap Block.points <+: P) :
    Leads P before (bodies.flatMap Block.points) [] c ((bodies.forM (block none)).run c).2 [] := by
  induction bodies generalizing c before with
  | nil => exact ⟨.of_quiet (.refl c), (append_nil before).symm ▸ hat⟩
  | cons body bodies ih =>
    rw [flatMap_cons] at hpoints ⊢
    obtain ⟨hbody, hat₁⟩ := leads_block hall .body none body (by simp [loopLocal]) hat
      (first_points hpoints)
    exact hbody.leads (ih hat₁ (rest_points hpoints))

/-- Checking a program leaves what its points say in the tables and the errors.  The same holds of
the points of its bodies with cleanup in them, which is not checked. -/
theorem leads_program {p : Program} (hids : p.ids.Nodup) {bodies : List Block}
    (hbare : bodies.map bareBlock = p.bodies.map bareBlock) :
    Leads (bodies.flatMap Block.points) [] (bodies.flatMap Block.points) [] {}
      ((program p).run {}).2 [] := by
  have hbodies (bodies : List Block) : (bodies.map bareBlock).flatMap (declsOfBlock none) =
      bodies.flatMap (declsOfBlock none) := by
    simp only [flatMap_map, declsOfBlock_bareBlock]
  have hall : ((introduced (bodies.flatMap Block.points)).map Prod.fst).Nodup := by
    rw [map_fst_introduced_bodies, ← hbodies bodies, hbare, hbodies]
    exact (nodup_decls hids).of_map
  have hreads := readsVars_items p {}
  have hnone : ((items p).run {}).2.context.symbols.symbols = [] :=
    map_eq_nil_iff.1 hreads.declared_eq
  have hat : ((items p).run {}).2.At (bodies.flatMap Block.points) [] [] [] := by
    refine ⟨List.nil_prefix, ?_, hreads.scopes_eq, ?_, ?_⟩
    · rw [hreads.flagged_eq]
      rfl
    · exact forall_mem_singleton.2 fun x hx => by contradiction
    · rw [hnone]
      exact forall_mem_nil _
  rw [run_program_items, ← forM_block_of_bareBlock hbare]
  exact (Tells.of_quiet hreads).leads (leads_bodies hall bodies hat (prefix_refl _))

end Check

end DeferLang
