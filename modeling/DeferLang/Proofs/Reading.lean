import DeferLang.Typing.Check
import DeferLang.Proofs.NodeIds

/-!
# What checking expressions does to the tables

Checking an expression declares nothing and opens no scope.  It gives every node a
type, resolves the variables of the expression, each by the scopes that are open, and
reports exactly those that no scope knows.  Their symbols count as used, and reading one
in which nothing was stored yet is reported too.  Only assignments store something, and
report what is wrong with their left side.  `Reads` states this of two states of
checking; it composes along `bind`.
-/

namespace DeferLang

open List

/-- The variables that an expression reads, each with its node, in order. -/
def Expr.vars : Expr → List (NodeId × Ident)
  | .var id name => [(id, name)]
  | .binary _ _ _ _ left right => left.vars ++ right.vars
  | .field _ _ base _ => base.vars
  | .range _ _ bound => bound.vars
  | .bool _ _ _ => []
  | .int _ _ _ => []
  | .str _ _ _ => []

/-- The variables that a call reads. -/
def Call.vars (c : Call) : List (NodeId × Ident) :=
  c.args.flatMap Expr.vars

theorem Expr.vars_sublist_ids (e : Expr) : (e.vars.map Prod.fst).Sublist e.ids := by
  induction e with
  | var id name => exact List.Sublist.refl _
  | binary id span op opSpan left right hleft hright =>
    rw [Expr.vars, Expr.ids, map_append]
    exact (hleft.append hright).trans (sublist_append_left _ _)
  | field id span base name ih | range id span bound ih =>
    exact ih.trans (sublist_append_left _ _)
  | bool id span value | int id span value | str id span value => exact nil_sublist _

theorem vars_sublist_ids (es : List Expr) :
    ((es.flatMap Expr.vars).map Prod.fst).Sublist (es.flatMap Expr.ids) := by
  induction es with
  | nil => exact List.Sublist.refl _
  | cons e es ih =>
    rw [flatMap_cons, flatMap_cons, map_append]
    exact e.vars_sublist_ids.append ih

/-- The error for a variable that no scope knows. -/
def undeclaredError (v : NodeId × Ident) : TypingError :=
  ⟨.undeclared v.2.name, v.2.span⟩

/-- The errors about undeclared variables among errors. -/
def undeclaredIn (errors : List TypingError) : List TypingError :=
  errors.filter (·.fault.code = 4001)

/-- Whether a fault is about the left side of an assignment. -/
def TypingFault.isAboutTarget : TypingFault → Bool
  | .notAssignable => true
  | .constAssigned _ => true
  | _ => false

/-- The errors about the left sides of assignments among errors. -/
def targetErrorsIn (errors : List TypingError) : List TypingError :=
  errors.filter (·.fault.isAboutTarget)

/-- The warning about a variable that is read before anything is stored in it. -/
def unsetError (v : NodeId × Ident) : TypingError :=
  ⟨.readBeforeStore v.2.name, v.2.span⟩

/-- The warnings about local variables among errors. -/
def localWarningsIn (errors : List TypingError) : List TypingError :=
  errors.filter fun e => e.fault.code = 4005 ∨ e.fault.code = 4018

/-- Whether a fault is about neither a variable, nor a left side. -/
def TypingFault.isOther : TypingFault → Bool
  | .undeclared _ => false
  | .unusedLocal _ => false
  | .readBeforeStore _ => false
  | fault => !fault.isAboutTarget

/-- Other faults stand between those about variables and left sides. -/
theorem errors_append_other {fault : TypingFault} (h : fault.isOther = true)
    (errors : List TypingError) (span : Span) :
    undeclaredIn (errors ++ [⟨fault, span⟩]) = undeclaredIn errors ∧
      targetErrorsIn (errors ++ [⟨fault, span⟩]) = targetErrorsIn errors ∧
      localWarningsIn (errors ++ [⟨fault, span⟩]) = localWarningsIn errors := by
  have hfault : fault.code ≠ 4001 ∧ fault.isAboutTarget = false ∧ fault.code ≠ 4005 ∧
      fault.code ≠ 4018 := by
    cases fault <;> simp_all [TypingFault.isOther, TypingFault.isAboutTarget, TypingFault.code]
  refine ⟨?_, ?_, ?_⟩
  · simp [undeclaredIn, hfault]
  · simp [targetErrorsIn, hfault]
  · simp [localWarningsIn, hfault]

/-- The variables that the left side of an assignment reads: a plain variable is not read. -/
def Expr.readVars : Expr → List (NodeId × Ident)
  | .var _ _ => []
  | e => e.vars

/-- What is wrong with the left side of an assignment, if certain names stand for constants. -/
def Expr.targetErrors (isConst : String → Bool) (left : Expr) : List TypingError :=
  if left.isLvalue then
    match left.asVar? with
    | some name => if isConst name.name then [⟨.constAssigned name.name, name.span⟩] else []
    | none => []
  else
    [⟨.notAssignable, left.span⟩]

/-- What a declaration says about its symbol, whatever happens to it later. -/
def Symbol.base (symbol : Symbol) : Symbol :=
  { symbol with initialized := false, used := false }

def SymbolTable.bases (table : SymbolTable) : List Symbol :=
  table.symbols.map Symbol.base

/-- What becomes of the symbol with a number when variables are resolved, and then something is
stored under names. -/
def Symbol.touch (scopes : ScopeStack) (vars : List (NodeId × Ident)) (stored : List Ident)
    (id : SymbolId) (symbol : Symbol) : Symbol :=
  { symbol with
    used := symbol.used || vars.any fun v => scopes.lookup v.2.name = some id
    initialized := symbol.initialized ||
      !symbol.isConst && stored.any fun name => scopes.lookup name.name = some id }

theorem Symbol.touch_nil (scopes : ScopeStack) (id : SymbolId) :
    touch scopes [] [] id = fun symbol => symbol := by
  funext symbol
  simp [touch]

theorem Symbol.touch_comp (scopes : ScopeStack) (vars vars' : List (NodeId × Ident))
    (stored stored' : List Ident) (id : SymbolId) :
    touch scopes vars' stored' id ∘ touch scopes vars stored id =
      touch scopes (vars ++ vars') (stored ++ stored') id := by
  funext symbol
  simp [touch, Bool.or_assoc, Bool.and_or_distrib_left]

/-- Nothing is stored in constants, and in symbols of other names. -/
theorem Symbol.touch_store {scopes : ScopeStack} {name : Ident} {id : SymbolId} {symbol : Symbol}
    (h : scopes.lookup name.name = some id → symbol.isConst = true) :
    touch scopes [] [name] id symbol = symbol := by
  by_cases hid : scopes.lookup name.name = some id
  · cases symbol
    simp_all [touch]
  · simp [touch, hid]

namespace Checker

/-- The variables declared so far; a symbol's number is its place in the list. -/
def declared (s : Checker) : List LocalVar :=
  s.context.symbols.symbols.map fun symbol => ⟨symbol.decl, symbol.name⟩

/-- The variables declared so far, each with whether it is a constant. -/
def flagged (s : Checker) : List (LocalVar × Bool) :=
  s.context.symbols.symbols.map fun symbol => (⟨symbol.decl, symbol.name⟩, symbol.isConst)

theorem map_fst_flagged (s : Checker) : s.flagged.map Prod.fst = s.declared := by
  rw [flagged, map_map]
  rfl

theorem flagged_eq_bases (s : Checker) :
    s.flagged = s.context.symbols.bases.map fun symbol =>
      (⟨symbol.decl, symbol.name⟩, symbol.isConst) := by
  rw [SymbolTable.bases, map_map]
  rfl

/-- Whether a name stands for a constant. -/
def isConst (s : Checker) (name : String) : Bool :=
  ((s.scopes.lookup name).bind fun id => s.flagged[id]?).any Prod.snd

/-- Whether a variable stands for a symbol in which nothing was stored yet. -/
def lacks (s : Checker) (v : NodeId × Ident) : Bool :=
  ((s.scopes.lookup v.2.name).bind s.context.symbols.get?).any fun symbol => !symbol.initialized

/-- The symbols that scopes give to variables, latest first. -/
def resolved (scopes : ScopeStack) (vars : List (NodeId × Ident)) : List (NodeId × SymbolId) :=
  (vars.filterMap fun (id, name) =>
    (scopes.lookup name.name).map fun symbol => (id, symbol)).reverse

theorem resolved_sublist (scopes : ScopeStack) (vars : List (NodeId × Ident)) :
    (((resolved scopes vars).map Prod.fst).reverse).Sublist (vars.map Prod.fst) := by
  rw [resolved, map_reverse, reverse_reverse]
  induction vars with
  | nil => exact List.Sublist.refl _
  | cons v vars ih =>
    obtain ⟨id, name⟩ := v
    cases hlookup : scopes.lookup name.name with
    | none => simpa [hlookup] using ih.cons id
    | some symbol => simpa [hlookup] using ih

/-- From one state to the other nothing was declared.  Expressions with the nodes `ids` got types,
the variables `vars` were resolved and those of `reads` read, then something was stored under the
names `stored`, and `targets` was reported about left sides. -/
structure Reads (ids : List NodeId) (vars reads : List (NodeId × Ident)) (stored : List Ident)
    (targets : List TypingError) (s s' : Checker) : Prop where
  symbols_eq : ∀ id, s'.context.symbols.get? id =
    (s.context.symbols.get? id).map (Symbol.touch s.scopes vars stored id)
  declSymbols_eq : s'.context.declSymbols = s.context.declSymbols
  scopes_eq : s'.scopes = s.scopes
  scopeLocals_eq : s'.context.scopeLocals = s.context.scopeLocals
  resolutions_eq : s'.context.resolutions = resolved s.scopes vars ++ s.context.resolutions
  types_perm : (s'.context.exprTypes.map Prod.fst).Perm (ids ++ s.context.exprTypes.map Prod.fst)
  errors_subset : ∀ e ∈ s.errors, e ∈ s'.errors
  undeclared_eq : undeclaredIn s'.errors = undeclaredIn s.errors ++
    (vars.filter fun v => (s.scopes.lookup v.2.name).isNone).map undeclaredError
  targets_eq : targetErrorsIn s'.errors = targetErrorsIn s.errors ++ targets
  warnings_eq : localWarningsIn s'.errors =
    localWarningsIn s.errors ++ (reads.filter s.lacks).map unsetError

namespace Reads

variable {s s' s'' : Checker} {ids ids' : List NodeId}
  {vars vars' reads reads' : List (NodeId × Ident)} {stored stored' : List Ident}
  {targets targets' : List TypingError}

theorem bases_eq (h : Reads ids vars reads stored targets s s') :
    s'.context.symbols.bases = s.context.symbols.bases := by
  apply ext_getElem?
  intro id
  have hsymbol := h.symbols_eq id
  rw [SymbolTable.get?, SymbolTable.get?] at hsymbol
  rw [SymbolTable.bases, SymbolTable.bases, List.getElem?_map, List.getElem?_map, hsymbol,
    Option.map_map]
  rfl

theorem flagged_eq (h : Reads ids vars reads stored targets s s') : s'.flagged = s.flagged := by
  rw [flagged_eq_bases, flagged_eq_bases, h.bases_eq]

theorem declared_eq (h : Reads ids vars reads stored targets s s') : s'.declared = s.declared := by
  rw [← map_fst_flagged, ← map_fst_flagged, h.flagged_eq]

/-- Where nothing was stored, the same variables lack a value as before. -/
theorem lacks_eq (h : Reads ids vars reads [] targets s s') : s'.lacks = s.lacks := by
  funext v
  rw [lacks, lacks, h.scopes_eq]
  cases s.scopes.lookup v.2.name with
  | none => rfl
  | some id =>
    rw [Option.bind_some, Option.bind_some, h.symbols_eq, Option.any_map]
    simp [Symbol.touch]

theorem refl (s : Checker) : Reads [] [] [] [] [] s s where
  symbols_eq id := by rw [Symbol.touch_nil, Option.map_id']
  declSymbols_eq := rfl
  scopes_eq := rfl
  scopeLocals_eq := rfl
  resolutions_eq := rfl
  types_perm := .refl _
  errors_subset _ h := h
  undeclared_eq := (append_nil _).symm
  targets_eq := (append_nil _).symm
  warnings_eq := (append_nil _).symm

/-- Nothing is read behind a store. -/
theorem append (h : Reads ids vars reads stored targets s s')
    (h' : Reads ids' vars' reads' stored' targets' s' s'')
    (hwarnings : (reads'.filter s'.lacks).map unsetError = (reads'.filter s.lacks).map unsetError) :
    Reads (ids ++ ids') (vars ++ vars') (reads ++ reads') (stored ++ stored')
      (targets ++ targets') s s'' := by
  constructor
  · intro id
    rw [h'.symbols_eq, h.symbols_eq, Option.map_map, h.scopes_eq, Symbol.touch_comp]
  · rw [h'.declSymbols_eq, h.declSymbols_eq]
  · rw [h'.scopes_eq, h.scopes_eq]
  · rw [h'.scopeLocals_eq, h.scopeLocals_eq]
  · rw [h'.resolutions_eq, h.resolutions_eq, h.scopes_eq, ← append_assoc]
    simp only [resolved, filterMap_append, reverse_append]
  · refine h'.types_perm.trans ((h.types_perm.append_left ids').trans ?_)
    rw [← append_assoc]
    exact perm_append_comm.append_right _
  · exact fun e he => h'.errors_subset e (h.errors_subset e he)
  · rw [h'.undeclared_eq, h.undeclared_eq, h.scopes_eq, filter_append, map_append, append_assoc]
  · rw [h'.targets_eq, h.targets_eq, append_assoc]
  · rw [h'.warnings_eq, h.warnings_eq, hwarnings, filter_append, map_append, append_assoc]

theorem trans (h : Reads ids vars reads [] targets s s')
    (h' : Reads ids' vars' reads' stored' targets' s' s'') :
    Reads (ids ++ ids') (vars ++ vars') (reads ++ reads') stored' (targets ++ targets') s s'' :=
  h.append h' (by rw [h.lacks_eq])

/-- The last step types and resolves nothing. -/
theorem followed (h : Reads ids vars reads stored targets s s')
    (h' : Reads [] [] [] stored' targets' s' s'') :
    Reads ids vars reads (stored ++ stored') (targets ++ targets') s s'' := by
  have hboth := h.append h' rfl
  rwa [append_nil, append_nil, append_nil] at hboth

theorem kept (h : Reads ids vars reads stored targets s s') {id : NodeId}
    (hid : id ∈ s.context.exprTypes.map Prod.fst) : id ∈ s'.context.exprTypes.map Prod.fst :=
  h.types_perm.mem_iff.2 (mem_append_right ids hid)

theorem typed (h : Reads ids vars reads stored targets s s') {id : NodeId} (hid : id ∈ ids) :
    id ∈ s'.context.exprTypes.map Prod.fst :=
  h.types_perm.mem_iff.2 (mem_append_left _ hid)

theorem isConst_eq (h : Reads ids vars reads stored targets s s') : s'.isConst = s.isConst := by
  funext name
  rw [isConst, isConst, h.scopes_eq, h.flagged_eq]

end Reads

end Checker

namespace Check

open Checker (Reads)

variable {α β : Type}

/-- A step of checking that types the nodes `ids` and reads the variables `vars`, stores nothing,
and reports nothing about left sides. -/
def ReadsVars (m : Check α) (ids : List NodeId) (vars : List (NodeId × Ident)) : Prop :=
  ∀ s, Reads ids vars vars [] [] s (m.run s).2

section Steps

theorem run_bind (m : Check α) (k : α → Check β) (s : Checker) :
    StateT.run (m >>= k) s = (k (m.run s).1).run (m.run s).2 :=
  rfl

theorem run_get_bind (k : Checker → Check α) (s : Checker) :
    StateT.run (get >>= k) s = (k s).run s :=
  rfl

theorem run_updateContext_bind (f : Context → Context) (k : Unit → Check α) (s : Checker) :
    StateT.run (updateContext f >>= k) s = (k ()).run { s with context := f s.context } :=
  rfl

theorem run_lookup_bind (name : String) (k : Option SymbolId → Check α) (s : Checker) :
    StateT.run (lookup? name >>= k) s = (k (s.scopes.lookup name)).run s :=
  rfl

theorem run_symbol_bind (id : SymbolId) (k : Option Symbol → Check α) (s : Checker) :
    StateT.run (symbol? id >>= k) s = (k (s.context.symbols.get? id)).run s :=
  rfl

end Steps

section Rules

variable {ids ids' : List NodeId} {vars vars' : List (NodeId × Ident)} {m m' : Check α}
  {k : α → Check β}

theorem ReadsVars.pure (a : α) : ReadsVars (Pure.pure a : Check α) [] [] :=
  fun s => .refl s

theorem ReadsVars.bind (hm : ReadsVars m ids vars) (hk : ∀ a, ReadsVars (k a) ids' vars') :
    ReadsVars (m >>= k) (ids ++ ids') (vars ++ vars') :=
  fun s => (hm s).trans (hk _ _)

/-- The first step types and resolves nothing. -/
theorem ReadsVars.after (hm : ReadsVars m [] []) (hk : ∀ a, ReadsVars (k a) ids vars) :
    ReadsVars (m >>= k) ids vars :=
  hm.bind hk

/-- The last step resolves nothing. -/
theorem ReadsVars.before (hm : ReadsVars m ids vars) (hk : ∀ a, ReadsVars (k a) ids' []) :
    ReadsVars (m >>= k) (ids ++ ids') vars := by
  have h := hm.bind hk
  rwa [append_nil] at h

/-- The last step types and resolves nothing. -/
theorem ReadsVars.followed (hm : ReadsVars m ids vars) (hk : ∀ a, ReadsVars (k a) [] []) :
    ReadsVars (m >>= k) ids vars := by
  have h := hm.before hk
  rwa [append_nil] at h

theorem ReadsVars.ite {cond : Prop} [Decidable cond] (hm : ReadsVars m ids vars)
    (hm' : ReadsVars m' ids vars) : ReadsVars (if cond then m else m') ids vars := by
  split
  · exact hm
  · exact hm'

theorem readsVars_get : ReadsVars (get : Check Checker) [] [] :=
  fun s => .refl s

theorem readsVars_report {fault : TypingFault} (h : fault.isOther = true) (span : Span) :
    ReadsVars (report fault span) [] [] := by
  intro s
  obtain ⟨hundeclared, htargets, hwarnings⟩ := errors_append_other h s.errors span
  exact { Reads.refl s with
    errors_subset := fun _ h => mem_append_left _ h
    undeclared_eq := hundeclared.trans (append_nil _).symm
    targets_eq := htargets.trans (append_nil _).symm
    warnings_eq := hwarnings.trans (append_nil _).symm }

/-- What is wrong with a left side is reported. -/
theorem reads_report_target {fault : TypingFault} (h : fault.isAboutTarget = true) (span : Span)
    (s : Checker) : Reads [] [] [] [] [⟨fault, span⟩] s ((report fault span).run s).2 := by
  have hcode : fault.code = 4003 := by
    cases fault <;> simp_all [TypingFault.isAboutTarget, TypingFault.code]
  exact { Reads.refl s with
    errors_subset := fun _ h => mem_append_left _ h
    undeclared_eq := show undeclaredIn (s.errors ++ [⟨fault, span⟩]) = _ by
      simp [undeclaredIn, hcode]
    targets_eq := show targetErrorsIn (s.errors ++ [⟨fault, span⟩]) = _ by
      simp [targetErrorsIn, h]
    warnings_eq := show localWarningsIn (s.errors ++ [⟨fault, span⟩]) = _ by
      simp [localWarningsIn, hcode] }

theorem readsVars_reportIf (cond : Bool) {fault : TypingFault} (h : fault.isOther = true)
    (span : Span) : ReadsVars (reportIf cond fault span) [] [] :=
  .ite (readsVars_report h span) (.pure _)

/-- Tables that no resolution and no type needs may change. -/
theorem readsVars_updateContext {f : Context → Context}
    (h : ∀ c, (f c).symbols = c.symbols ∧ (f c).declSymbols = c.declSymbols ∧
      (f c).scopeLocals = c.scopeLocals ∧ (f c).resolutions = c.resolutions ∧
      (f c).exprTypes = c.exprTypes) : ReadsVars (updateContext f) [] [] := by
  intro s
  obtain ⟨hsymbols, hdecls, hlocals, hresolutions, htypes⟩ := h s.context
  exact { Reads.refl s with
    symbols_eq := fun id => (congrArg (SymbolTable.get? · id) hsymbols).trans
      ((Reads.refl s).symbols_eq id)
    declSymbols_eq := hdecls
    scopeLocals_eq := hlocals
    resolutions_eq := hresolutions
    types_perm := .of_eq (congrArg (List.map Prod.fst) htypes) }

theorem readsVars_typed (expr : NodeId) (type : Ty) : ReadsVars (typed expr type) [expr] [] :=
  fun s => { Reads.refl s with types_perm := .refl _ }

theorem get?_update (table : SymbolTable) (id other : SymbolId) (f : Symbol → Symbol) :
    (table.update id f).get? other =
      if id = other then (table.get? other).map f else table.get? other := by
  rw [SymbolTable.get?, SymbolTable.update, List.getElem?_modify]
  split
  · rfl
  · exact congrFun Option.map_id _

end Rules

section Expressions

/-- A variable gets the symbol that the scopes give to its name, which counts as used.  One that no
scope knows is reported. -/
theorem reads_resolveVar (expr : NodeId) (name : Ident) (s : Checker) :
    Reads [] [(expr, name)] [] [] [] s ((resolveVar expr name).run s).2 := by
  rw [resolveVar, run_lookup_bind]
  cases hlookup : s.scopes.lookup name.name with
  | none =>
    exact { Reads.refl s with
      symbols_eq := fun id => show s.context.symbols.get? id = _ by
        cases s.context.symbols.get? id <;> simp [Symbol.touch, hlookup]
      resolutions_eq := show s.context.resolutions = _ by simp [Checker.resolved, hlookup]
      errors_subset := fun _ h => mem_append_left _ h
      undeclared_eq := show undeclaredIn (s.errors ++ [undeclaredError (expr, name)]) = _ by
        simp [undeclaredIn, hlookup, undeclaredError, TypingFault.code]
      targets_eq := show targetErrorsIn (s.errors ++ [undeclaredError (expr, name)]) = _ by
        simp [targetErrorsIn, undeclaredError, TypingFault.isAboutTarget]
      warnings_eq := show localWarningsIn (s.errors ++ [undeclaredError (expr, name)]) = _ by
        simp [localWarningsIn, undeclaredError, TypingFault.code] }
  | some id =>
    -- behind its entry only the symbol is marked as used
    have hreads : Reads [] [(expr, name)] [] [] [] s { s with context := { s.context with
        resolutions := (expr, id) :: s.context.resolutions
        symbols := s.context.symbols.update id fun symbol => { symbol with used := true } } } :=
      { Reads.refl s with
        symbols_eq := fun other => by
          rw [get?_update]
          cases s.context.symbols.get? other <;>
            by_cases hid : id = other <;> simp [Symbol.touch, hlookup, hid]
        resolutions_eq := by simp [Checker.resolved, hlookup]
        undeclared_eq := by simp [hlookup] }
    dsimp only
    rw [run_updateContext_bind, updateSymbol, run_updateContext_bind, run_symbol_bind]
    split
    · exact hreads
    · exact hreads

/-- A variable that is read is resolved, and reported if nothing was stored in it. -/
theorem readsVars_readVar (expr : NodeId) (name : Ident) :
    ReadsVars (readVar expr name) [] [(expr, name)] := by
  intro s
  rw [readVar, run_bind]
  suffices h : Reads [] [] [(expr, name)] [] [] _ _ from (reads_resolveVar expr name s).trans h
  generalize ((resolveVar expr name).run s).2 = s₁
  generalize ((resolveVar expr name).run s).1 = type
  rw [run_lookup_bind]
  have hquiet (h : s₁.lacks (expr, name) = false) : Reads [] [] [(expr, name)] [] [] s₁ s₁ :=
    { Reads.refl s₁ with warnings_eq := by simp [h] }
  cases hlookup : s₁.scopes.lookup name.name with
  | none => exact hquiet (by simp [Checker.lacks, hlookup])
  | some id =>
    dsimp only
    rw [run_symbol_bind]
    cases hsymbol : s₁.context.symbols.get? id with
    | none => exact hquiet (by simp [Checker.lacks, hlookup, hsymbol])
    | some symbol =>
      have hlacks : s₁.lacks (expr, name) = !symbol.initialized := by
        simp [Checker.lacks, hlookup, hsymbol]
      dsimp only
      cases hinit : symbol.initialized with
      | true => exact hquiet (by rw [hlacks, hinit]; rfl)
      | false =>
        rw [hinit] at hlacks
        exact { Reads.refl s₁ with
          errors_subset := fun _ h => mem_append_left _ h
          undeclared_eq := show undeclaredIn (s₁.errors ++ [unsetError (expr, name)]) = _ by
            simp [undeclaredIn, unsetError, TypingFault.code]
          targets_eq := show targetErrorsIn (s₁.errors ++ [unsetError (expr, name)]) = _ by
            simp [targetErrorsIn, unsetError, TypingFault.isAboutTarget]
          warnings_eq := show localWarningsIn (s₁.errors ++ [unsetError (expr, name)]) = _ by
            simp [localWarningsIn, unsetError, TypingFault.code, hlacks] }

theorem readsVars_binary (op : BinOp) (left right : Expr) (leftType rightType : Ty) :
    ReadsVars (binary op left right leftType rightType) [] [] := by
  unfold binary
  split
  · refine (readsVars_reportIf _ rfl _).after fun _ => ?_
    exact (readsVars_reportIf _ rfl _).after fun _ => .pure _
  · exact (readsVars_reportIf _ rfl _).after fun _ => .pure _

theorem readsVars_fieldOf (baseType : Ty) (field : Ident) :
    ReadsVars (fieldOf baseType field) [] [] := by
  refine .ite (.pure _) ?_
  split
  · exact (readsVars_report rfl _).after fun _ => .pure _
  · refine readsVars_get.after fun s => ?_
    split
    · exact .pure _
    · exact (readsVars_report rfl _).after fun _ => .pure _

/-- Every node of an expression gets a type. -/
theorem readsVars_expr (e : Expr) : ReadsVars (expr e) e.ids e.vars := by
  induction e with
  | bool id span value => exact readsVars_typed _ _
  | int id span value =>
    exact (readsVars_reportIf _ rfl _).after fun _ =>
      readsVars_typed _ _
  | str id span value => exact readsVars_typed _ _
  | var id name => exact (readsVars_readVar id name).before fun type => readsVars_typed _ _
  | binary id span op opSpan left right hleft hright =>
    rw [Expr.ids, append_assoc]
    refine hleft.bind fun leftType => hright.before fun rightType => ?_
    exact (readsVars_binary _ _ _ _ _).after fun type => readsVars_typed _ _
  | field id span base name ih =>
    refine ih.before fun baseType => ?_
    exact (readsVars_fieldOf _ _).after fun type => readsVars_typed _ _
  | range id span bound ih =>
    refine ih.before fun found => ?_
    exact (readsVars_reportIf _ rfl _).after fun _ =>
      readsVars_typed _ _

theorem readsVars_exprs (es : List Expr) :
    ReadsVars (exprs es) (es.flatMap Expr.ids) (es.flatMap Expr.vars) := by
  induction es with
  | nil => exact .pure _
  | cons e es ih =>
    rw [flatMap_cons, flatMap_cons]
    exact (readsVars_expr e).bind fun type => ih.followed fun _ => .pure _

theorem readsVars_assignable (expected found : Ty) (span : Span) :
    ReadsVars (assignable expected found span) [] [] :=
  readsVars_reportIf _ rfl _

/-- The left side of an assignment is resolved, but a plain variable is not read. -/
theorem reads_target (e : Expr) (s : Checker) :
    Reads e.ids e.vars e.readVars [] [] s ((target e).run s).2 := by
  cases e with
  | var id name => exact (reads_resolveVar id name s).trans (readsVars_typed id _ _)
  | _ => exact readsVars_expr _ s

/-- Something is stored in a variable.  A store to a constant is reported. -/
theorem reads_storeTo (name : Ident) (s : Checker) :
    Reads [] [] [] [name]
      (if s.isConst name.name then [⟨.constAssigned name.name, name.span⟩] else []) s
      ((storeTo name).run s).2 := by
  rw [storeTo, run_lookup_bind, Checker.isConst]
  -- a store that finds no symbol, or a constant, changes no symbol
  have hsame (h : ∀ id ∈ s.scopes.lookup name.name, ∀ symbol ∈ s.context.symbols.get? id,
      symbol.isConst = true) : Reads [] [] [] [name] [] s s :=
    { Reads.refl s with
      symbols_eq := fun id => by
        cases hsymbol : s.context.symbols.get? id with
        | none => rfl
        | some symbol =>
          exact congrArg some (Symbol.touch_store fun hid => h id hid symbol hsymbol).symm }
  cases hlookup : s.scopes.lookup name.name with
  | none => exact hsame (by simp [hlookup])
  | some id =>
    have hflag : s.flagged[id]? = (s.context.symbols.get? id).map fun symbol =>
        (⟨symbol.decl, symbol.name⟩, symbol.isConst) := List.getElem?_map
    rw [Option.bind_some, hflag, Option.any_map]
    dsimp only
    rw [run_symbol_bind]
    cases hsymbol : s.context.symbols.get? id with
    | none => exact hsame (by simp [hlookup, hsymbol])
    | some symbol =>
      dsimp only [Option.any_some, Function.comp_apply]
      by_cases hconst : symbol.isConst = true
      · rw [if_pos hconst, if_pos hconst]
        exact { reads_report_target rfl name.span s with
          symbols_eq := (hsame (by simp [hlookup, hsymbol, hconst])).symbols_eq }
      · rw [if_neg hconst, if_neg hconst]
        exact { Reads.refl s with
          symbols_eq := fun other => by
            change (s.context.symbols.update id _).get? other = _
            rw [get?_update]
            by_cases hid : id = other
            · subst hid
              simp [Symbol.touch, hlookup, hsymbol, hconst]
            · cases s.context.symbols.get? other <;> simp [Symbol.touch, hlookup, hid] }

/-- What is wrong with the left side of an assignment is reported behind its two sides, and a plain
variable is stored to. -/
theorem reads_assignment (left value : Expr) (s : Checker) :
    Reads (left.ids ++ value.ids) (left.vars ++ value.vars) (left.readVars ++ value.vars)
      left.asVar?.toList (left.targetErrors s.isConst) s ((assignment left value).run s).2 := by
  have hsides := (reads_target left s).trans (readsVars_expr value ((target left).run s).2)
  -- behind both sides the same names stand for constants as in front of them
  rw [assignment, run_bind, run_bind, ← hsides.isConst_eq, Expr.targetErrors]
  suffices h : Reads [] [] [] left.asVar?.toList (if left.isLvalue then _ else _) _ _ from
    hsides.followed h
  generalize ((target left).run s).1 = leftType
  generalize ((expr value).run ((target left).run s).2).1 = valueType
  generalize ((expr value).run ((target left).run s).2).2 = s'
  by_cases hlvalue : left.isLvalue = true
  · rw [if_pos hlvalue, if_pos hlvalue]
    have hvalue (allowed : Bool) : ReadsVars
        (if allowed = true then assignable leftType.deref valueType value.span else pure ())
        [] [] :=
      .ite (readsVars_assignable _ _ _) (.pure _)
    cases left.asVar? with
    | none => exact hvalue true s'
    | some name =>
      have hend := (reads_storeTo name s').followed (hvalue ((storeTo name).run s').1 _)
      rwa [append_nil, append_nil] at hend
  · have hvar : left.asVar? = none := by
      cases left with
      | var id name => exact absurd rfl hlvalue
      | _ => rfl
    rw [if_neg hlvalue, if_neg hlvalue, hvar]
    exact reads_report_target rfl left.span s'

theorem readsVars_condition (construct : String) (cond : Expr) :
    ReadsVars (condition construct cond) cond.ids cond.vars :=
  (readsVars_expr cond).followed fun _ => readsVars_reportIf _ rfl _

theorem readsVars_cleanupArgs (args : List (Expr × Ty)) : ReadsVars (cleanupArgs args) [] [] := by
  induction args with
  | nil => exact .pure _
  | cons arg args ih =>
    obtain ⟨e, type⟩ := arg
    unfold cleanupArgs
    split
    · exact (readsVars_report rfl _).after fun _ => ih
    · exact ih

theorem readsVars_iterated (iter : Expr) :
    ReadsVars (expr iter >>= fun found =>
      reportIf (found ≠ .sequence .int ∧ found ≠ .unknown) (.forOverNonRange found) iter.span)
      iter.ids iter.vars :=
  (readsVars_expr iter).followed fun _ => readsVars_reportIf _ rfl _

/-- A call gets a type, and so do its arguments. -/
theorem readsVars_call (c : Call) (isDeferred : Bool) :
    ReadsVars (call c isDeferred) c.ids c.vars := by
  have hcall : ReadsVars (call c isDeferred) (c.args.flatMap Expr.ids ++ [c.id]) c.vars := by
    refine (readsVars_exprs c.args).before fun types => ?_
    refine (readsVars_typed _ _).followed fun _ => .ite ?_ ?_
    · split
      · exact readsVars_reportIf _ rfl _
      · exact readsVars_report rfl _
    · refine readsVars_get.after fun s => .ite ?_ (.ite (readsVars_cleanupArgs _) ?_)
      · exact readsVars_reportIf _ rfl _
      · exact readsVars_report rfl _
  -- the call itself gets its type behind its arguments
  exact fun s => { hcall s with
    types_perm := (hcall s).types_perm.trans ((perm_append_singleton _ _).append_right _) }

end Expressions

section Declarations

theorem readsVars_typeRef (t : TypeRef) : ReadsVars (typeRef t) [] [] := by
  unfold typeRef
  split
  · exact .pure _
  · exact .pure _
  · exact .pure _
  · exact .pure _
  · refine readsVars_get.after fun s => ?_
    split
    · exact .pure _
    · exact (readsVars_report rfl _).after fun _ => .pure _

theorem readsVars_declaredType (d : VarDecl) (initType : Option Ty) :
    ReadsVars (declaredType d initType) [] [] := by
  refine .ite (.ite ?_ ?_) (readsVars_typeRef _)
  · split
    · exact .pure _
    · exact (readsVars_report rfl _).after fun _ => .pure _
  · exact (readsVars_report rfl _).after fun _ => .pure _

theorem readsVars_specialMembers (d : VarDecl) (className : String) :
    ReadsVars (specialMembers d className) [] [] := by
  refine readsVars_get.after fun s => ?_
  split
  · exact .pure _
  · refine (readsVars_reportIf _ rfl _).after fun _ => ?_
    exact readsVars_reportIf _ rfl _

theorem readsVars_declarable (d : VarDecl) (type : Ty) : ReadsVars (declarable d type) [] [] := by
  unfold declarable
  split
  · exact readsVars_report rfl _
  · exact readsVars_report rfl _
  · exact readsVars_report rfl _
  · split
    · exact readsVars_report rfl _
    · exact readsVars_reportIf _ rfl _
  · exact readsVars_specialMembers d _
  · exact .pure _

/-- The variables of an expression that may be missing. -/
def initVars (init : Option Expr) : List (NodeId × Ident) :=
  init.toList.flatMap Expr.vars

theorem readsVars_expr_some (e : Expr) :
    ReadsVars (expr e) (Expr.idsOf? (some e)) (initVars (some e)) := by
  rw [Expr.idsOf?, initVars, Option.toList_some, flatMap_singleton, flatMap_singleton]
  exact readsVars_expr e

theorem readsVars_initializer (init : Option Expr) :
    ReadsVars (initializer init) (Expr.idsOf? init) (initVars init) := by
  cases init with
  | none => exact .pure _
  | some e => exact (readsVars_expr_some e).followed fun _ => .pure _

/-- A value that is returned is read, and reported. -/
theorem readsVars_returned (value : Expr) :
    ReadsVars (expr value >>= fun _ => report .returnValue value.span)
      (Expr.idsOf? (some value)) (initVars (some value)) :=
  (readsVars_expr_some value).followed fun _ => readsVars_report rfl _

/-- The warning about a symbol, if it is a local variable that nothing uses. -/
def unusedError? (symbol : Symbol) : Option TypingError :=
  if !symbol.used && symbol.kind = .local && !mayStayUnused symbol.name then
    some ⟨.unusedLocal symbol.name, symbol.span⟩
  else
    none

theorem fault_of_unusedError? {symbol : Symbol} {e : TypingError}
    (h : unusedError? symbol = some e) : e.fault = .unusedLocal symbol.name := by
  rw [unusedError?, Option.ite_none_right_eq_some] at h
  rw [← Option.some.inj h.2]

/-- The warnings about the symbols of a scope. -/
def unusedErrors (table : SymbolTable) (ids : List SymbolId) : List TypingError :=
  ids.filterMap fun id => (table.get? id).bind unusedError?

/-- What a scope does not use is reported when it is closed. -/
theorem run_unusedIn (ids : List SymbolId) (s : Checker) :
    ((unusedIn ids).run s).2 =
      { s with errors := s.errors ++ unusedErrors s.context.symbols ids } := by
  induction ids generalizing s with
  | nil => exact congrArg (Checker.mk _ _) (append_nil _).symm
  | cons id ids ih =>
    rw [unusedIn, run_symbol_bind, unusedErrors, filterMap_cons]
    cases s.context.symbols.get? id with
    | none => exact ih s
    | some symbol =>
      dsimp only [Option.bind_some]
      rw [run_bind, ih, reportIf, unusedError?]
      split
      · exact congrArg (Checker.mk _ _) (append_assoc _ _ _)
      · rfl

/-- Warnings about unused symbols are about local variables. -/
theorem errors_append_unused (errors : List TypingError) (table : SymbolTable)
    (ids : List SymbolId) :
    undeclaredIn (errors ++ unusedErrors table ids) = undeclaredIn errors ∧
      targetErrorsIn (errors ++ unusedErrors table ids) = targetErrorsIn errors ∧
      localWarningsIn (errors ++ unusedErrors table ids) =
        localWarningsIn errors ++ unusedErrors table ids := by
  have hfault : ∀ e ∈ unusedErrors table ids, ∃ name, e.fault = .unusedLocal name := by
    intro e he
    obtain ⟨id, -, he⟩ := mem_filterMap.1 he
    obtain ⟨symbol, -, he⟩ := Option.bind_eq_some_iff.1 he
    exact ⟨symbol.name, fault_of_unusedError? he⟩
  simp only [undeclaredIn, targetErrorsIn, localWarningsIn, filter_append]
  refine ⟨append_right_eq_self.2 ?_, append_right_eq_self.2 ?_, congrArg _ ?_⟩
  · rw [filter_eq_nil_iff]
    intro e he
    obtain ⟨name, hname⟩ := hfault e he
    simp [hname, TypingFault.code]
  · rw [filter_eq_nil_iff]
    intro e he
    obtain ⟨name, hname⟩ := hfault e he
    simp [hname, TypingFault.isAboutTarget]
  · rw [filter_eq_self]
    intro e he
    obtain ⟨name, hname⟩ := hfault e he
    simp [hname, TypingFault.code]

end Declarations

section Members

theorem readsVars_registerClass (c : ClassDef) : ReadsVars (registerClass c) [] [] := by
  refine readsVars_get.after fun s => .ite (readsVars_report rfl _) ?_
  exact readsVars_updateContext fun _ => ⟨rfl, rfl, rfl, rfl, rfl⟩

theorem readsVars_fields (before : List (String × Ty)) (fs : List FieldDef) :
    ReadsVars (fields before fs) [] [] := by
  induction fs generalizing before with
  | nil => exact .pure _
  | cons f fs ih =>
    refine (readsVars_typeRef _).after fun type => ?_
    refine (readsVars_reportIf _ rfl _).after fun _ => .ite ?_ (ih _)
    exact (readsVars_report rfl _).after fun _ => ih _

theorem readsVars_ctors (className : String) (before : List (CtorKind × CtorState))
    (cs : List CtorDecl) : ReadsVars (ctors className before cs) [] [] := by
  induction cs generalizing before with
  | nil => exact .pure _
  | cons c cs ih =>
    exact (readsVars_reportIf _ rfl _).after fun _ => ih _

theorem readsVars_classMembers (c : ClassDef) : ReadsVars (classMembers c) [] [] := by
  refine readsVars_get.after fun s => ?_
  split
  · exact .pure _
  · refine .ite ?_ (.pure _)
    refine (readsVars_fields _ _).after fun fieldTypes => ?_
    refine (readsVars_ctors _ _ _).after fun ctorStates => ?_
    exact readsVars_updateContext fun _ => ⟨rfl, rfl, rfl, rfl, rfl⟩

theorem readsVars_registerFunction (f : Function) : ReadsVars (registerFunction f) [] [] := by
  refine .ite (readsVars_report rfl _) ?_
  refine readsVars_get.after fun s => .ite (readsVars_report rfl _) ?_
  exact readsVars_updateContext fun _ => ⟨rfl, rfl, rfl, rfl, rfl⟩

theorem readsVars_forM {step : α → Check PUnit} (hstep : ∀ a, ReadsVars (step a) [] [])
    (as : List α) : ReadsVars (as.forM step) [] [] := by
  induction as with
  | nil => exact .pure _
  | cons a as ih => exact (hstep a).after fun _ => ih

end Members

end Check

end DeferLang
