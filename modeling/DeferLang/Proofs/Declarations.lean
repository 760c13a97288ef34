import Mathlib.Data.List.Perm.Subperm
import DeferLang.Proofs.Reading
import DeferLang.Proofs.Tracking

/-!
# What checking a program does to the tables

Checking walks the bodies of a program in order.  Every declaration on the way
makes the next symbol, every block that is left is recorded with what it
declares, and every scope that a piece of program opens is closed behind it.
With distinct node numbers the final tables therefore know every variable, and
they cover the program.
-/

namespace DeferLang

open List

mutual

/-- The numbers of the blocks in a statement. -/
def Stmt.blockIds : Stmt → List NodeId
  | .block body => blockIdsOfBlock body
  | .ifElse _ _ thenBody none => blockIdsOfBlock thenBody
  | .ifElse _ _ thenBody (some elseBody) => blockIdsOfBlock thenBody ++ blockIdsOfBlock elseBody
  | .whileLoop _ _ body => blockIdsOfBlock body
  | .forIn _ _ _ _ body => blockIdsOfBlock body
  | .varDecl _ => []
  | .assign _ _ _ => []
  | .call _ _ => []
  | .ret _ _ => []
  | .defer _ _ => []
  | .cleanup _ => []

/-- The numbers of a block and of those in it. -/
def blockIdsOfBlock : BlockOf Stmt → List NodeId
  | ⟨id, _, stmts⟩ => id :: blockIdsOfStmts stmts

/-- The numbers of the blocks in statements. -/
def blockIdsOfStmts : List Stmt → List NodeId
  | [] => []
  | s :: ss => s.blockIds ++ blockIdsOfStmts ss

end

namespace Checker

/-- The entries of declarations for variables, the first of which gets the symbol `first`. -/
def entriesFrom (first : SymbolId) (xs : List LocalVar) : List (NodeId × SymbolId) :=
  ((xs.zipIdx first).map fun (x, symbol) => (x.decl, symbol)).reverse

/-- From one state to the other a piece of program was checked: it declares `decls`, has the
numbers `ids`, and among them the blocks `blocks`. -/
structure Walks (decls : List LocalVar) (ids blocks : List NodeId) (s s' : Checker) : Prop where
  declared_eq : s'.declared = s.declared ++ decls
  declSymbols_eq : s'.context.declSymbols =
    entriesFrom s.declared.length decls ++ s.context.declSymbols
  /-- Only the innermost of the open scopes gets names. -/
  outer_eq : s'.scopes.tail = s.scopes.tail
  blocks_eq : s'.scopes.map Scope.block = s.scopes.map Scope.block
  scopeLocals : ∃ new, s'.context.scopeLocals = new ++ s.context.scopeLocals ∧
    ∀ b ∈ blocks, b ∈ new.map Prod.fst
  resolutions : ∃ new, s'.context.resolutions = new ++ s.context.resolutions ∧
    (new.map Prod.fst).reverse.Sublist ids
  types_subperm :
    (s'.context.exprTypes.map Prod.fst).Subperm (ids ++ s.context.exprTypes.map Prod.fst)

namespace Walks

variable {s s' s'' : Checker} {decls decls' : List LocalVar} {ids ids' blocks blocks' : List NodeId}

theorem trans (h : Walks decls ids blocks s s') (h' : Walks decls' ids' blocks' s' s'') :
    Walks (decls ++ decls') (ids ++ ids') (blocks ++ blocks') s s'' := by
  constructor
  · rw [h'.declared_eq, h.declared_eq, append_assoc]
  · rw [h'.declSymbols_eq, h.declSymbols_eq, h.declared_eq, length_append, ← append_assoc]
    simp only [entriesFrom, zipIdx_append, map_append, reverse_append]
  · rw [h'.outer_eq, h.outer_eq]
  · rw [h'.blocks_eq, h.blocks_eq]
  · obtain ⟨new, hnew, hblocks⟩ := h.scopeLocals
    obtain ⟨new', hnew', hblocks'⟩ := h'.scopeLocals
    refine ⟨new' ++ new, by rw [hnew', hnew, append_assoc], ?_⟩
    intro b hb
    rw [map_append, mem_append]
    rcases mem_append.1 hb with hb | hb
    · exact .inr (hblocks b hb)
    · exact .inl (hblocks' b hb)
  · obtain ⟨new, hnew, hids⟩ := h.resolutions
    obtain ⟨new', hnew', hids'⟩ := h'.resolutions
    refine ⟨new' ++ new, by rw [hnew', hnew, append_assoc], ?_⟩
    rw [map_append, reverse_append]
    exact hids.append hids'
  · refine h'.types_subperm.trans (((List.Subperm.refl ids').append h.types_subperm).trans ?_)
    rw [← append_assoc]
    exact (perm_append_comm.append_right _).subperm

/-- More numbers may be named than there are. -/
theorem of_sublist (h : Walks decls ids blocks s s') (hids : ids.Sublist ids') :
    Walks decls ids' blocks s s' := by
  obtain ⟨new, hnew, hsub⟩ := h.resolutions
  exact ⟨h.declared_eq, h.declSymbols_eq, h.outer_eq, h.blocks_eq, h.scopeLocals,
    ⟨new, hnew, hsub.trans hids⟩, h.types_subperm.trans (hids.append_right _).subperm⟩

/-- Reading variables is walking without declarations. -/
theorem of_reads {vars reads : List (NodeId × Ident)} {stored : List Ident}
    {targets : List TypingError} (h : Reads ids vars reads stored targets s s')
    (hids : (vars.map Prod.fst).Sublist ids) : Walks [] ids [] s s' := by
  constructor
  · rw [h.declared_eq, append_nil]
  · rw [h.declSymbols_eq]
    rfl
  · rw [h.scopes_eq]
  · rw [h.scopes_eq]
  · exact ⟨[], by rw [h.scopeLocals_eq, nil_append], by simp⟩
  · exact ⟨_, h.resolutions_eq, (resolved_sublist _ _).trans hids⟩
  · exact h.types_perm.subperm

end Walks

end Checker

namespace Check

open Checker (Walks Reads)

/-- The symbol that a declaration makes. -/
def declaredSymbol (name : Ident) (type : Ty) (kind : SymbolKind) (decl : NodeId)
    (isConst initialized : Bool) : Symbol :=
  { name := name.name, type, kind, initialized, isConst, decl, span := name.span, used := false }

/-- The scopes behind a declaration: the innermost one gets the name, unless it is taken. -/
def declaredIn (name : String) (symbol : SymbolId) : ScopeStack → ScopeStack
  | [] => []
  | scope :: outer => (scope.insert? name symbol).getD scope :: outer

theorem declaredIn_eq (name : String) (symbol : SymbolId) (scopes : ScopeStack) :
    declaredIn name symbol scopes = scopes ∨ ∃ scope outer, scopes = scope :: outer ∧
      declaredIn name symbol scopes =
        { scope with entries := scope.entries ++ [(name, symbol)] } :: outer := by
  cases scopes with
  | nil => exact .inl rfl
  | cons scope outer =>
    rw [declaredIn, Scope.insert?]
    cases scope.get? name with
    | some taken => exact .inl rfl
    | none => exact .inr ⟨scope, outer, rfl, rfl⟩

/-- A declaration makes the next symbol.  It resolves and types nothing, and reports nothing about
variables or left sides. -/
theorem run_declare (name : Ident) (type : Ty) (kind : SymbolKind) (decl : NodeId)
    (isConst initialized : Bool) (s : Checker) :
    ∃ errors, ((declare name type kind decl isConst initialized).run s).2 =
        { context := { s.context with
            symbols := ⟨s.context.symbols.symbols ++
              [declaredSymbol name type kind decl isConst initialized]⟩
            declSymbols := (decl, s.declared.length) :: s.context.declSymbols }
          scopes := declaredIn name.name s.declared.length s.scopes
          errors } ∧
      (∀ e ∈ s.errors, e ∈ errors) ∧ undeclaredIn errors = undeclaredIn s.errors ∧
      targetErrorsIn errors = targetErrorsIn s.errors ∧
      localWarningsIn errors = localWarningsIn s.errors := by
  have hlength : s.declared.length = s.context.symbols.symbols.length := length_map _
  rw [hlength]
  obtain ⟨context, scopes, errors⟩ := s
  cases scopes with
  | nil => exact ⟨errors, rfl, fun _ h => h, rfl, rfl, rfl⟩
  | cons scope outer =>
    rw [declare, run_get_bind]
    dsimp only [SymbolTable.add, declaredIn]
    rw [run_updateContext_bind]
    cases scope.insert? name.name context.symbols.symbols.length with
    | some scope' => exact ⟨errors, rfl, fun _ h => h, rfl, rfl, rfl⟩
    | none =>
      exact ⟨errors ++ [⟨.redeclared name.name, name.span⟩], rfl,
        fun _ h => mem_append_left _ h, errors_append_other rfl errors name.span⟩

/-- A declaration adds its variable, and names it in the innermost scope at most. -/
theorem walks_declare (name : Ident) (type : Ty) (kind : SymbolKind) (decl : NodeId)
    (isConst initialized : Bool) (s : Checker) :
    Walks [⟨decl, name.name⟩] [] [] s
      ((declare name type kind decl isConst initialized).run s).2 := by
  obtain ⟨errors, hrun, -⟩ := run_declare name type kind decl isConst initialized s
  rw [hrun]
  have hscopes := declaredIn_eq name.name s.declared.length s.scopes
  refine ⟨map_append, rfl, ?_, ?_, ⟨[], rfl, by simp⟩, ⟨[], rfl, List.Sublist.refl _⟩, .refl _⟩
  · rcases hscopes with hsame | ⟨scope, outer, hscopes, hnew⟩
    · rw [hsame]
    · rw [hnew, hscopes, tail_cons, tail_cons]
  · rcases hscopes with hsame | ⟨scope, outer, hscopes, hnew⟩
    · rw [hsame]
    · rw [hnew, hscopes, map_cons, map_cons]

/-- A step of checking that types nodes and reads variables, and then declares a variable. -/
def DeclaresAfter (d : VarDecl) (m : Check Unit) (ids : List NodeId)
    (vars : List (NodeId × Ident)) : Prop :=
  ∀ s, ∃ (s₁ : Checker) (type : Ty), Reads ids vars vars [] [] s s₁ ∧
    (m.run s).2 = ((declare d.name type .local d.id d.type.isConst
      (d.init.isSome || type.className?.isSome)).run s₁).2

theorem DeclaresAfter.bind {α : Type} {d : VarDecl} {ids ids' : List NodeId}
    {vars vars' : List (NodeId × Ident)} {m : Check α} {k : α → Check Unit}
    (hm : ReadsVars m ids vars) (hk : ∀ a, DeclaresAfter d (k a) ids' vars') :
    DeclaresAfter d (m >>= k) (ids ++ ids') (vars ++ vars') := by
  intro s
  have hfirst := hm s
  obtain ⟨s₁, type, hsecond, hrun⟩ := hk (m.run s).1 (m.run s).2
  exact ⟨s₁, type, hfirst.trans hsecond, hrun⟩

/-- A declaration reads the variables of its initializer, and then declares its name. -/
theorem declaresAfter_varDecl (d : VarDecl) :
    DeclaresAfter d (varDecl d) (Expr.idsOf? d.init) (initVars d.init) := by
  -- however the type is found, the declaration comes last
  have hdeclare (type : Ty) : DeclaresAfter d (declare d.name type .local d.id d.type.isConst
      (d.init.isSome || type.className?.isSome)) [] [] :=
    fun s => ⟨s, type, .refl s, rfl⟩
  rw [← append_nil (Expr.idsOf? d.init), ← append_nil (initVars d.init)]
  refine .bind (readsVars_initializer d.init) fun initType => ?_
  refine DeclaresAfter.bind (readsVars_declaredType d initType) fun type => ?_
  refine DeclaresAfter.bind (readsVars_declarable d type) fun _ => ?_
  dsimp only
  split
  · split
    · exact DeclaresAfter.bind (readsVars_assignable _ _ _) fun _ => hdeclare type
    · exact hdeclare type
  · exact hdeclare type

/-- Closing a scope records it, and reports what nothing uses. -/
theorem run_closeScope {s : Checker} {scope : Scope} {outer : ScopeStack}
    (h : s.scopes = scope :: outer) :
    (closeScope.run s).2 =
      { context := { s.context with
          scopeLocals := (scope.block, scope.symbols) :: s.context.scopeLocals }
        scopes := outer
        errors := s.errors ++ unusedErrors s.context.symbols scope.symbols } := by
  have hrun : closeScope.run s = (unusedIn scope.symbols).run { s with
      scopes := outer
      context := { s.context with
        scopeLocals := (scope.block, scope.symbols) :: s.context.scopeLocals } } := by
    rw [closeScope, run_get_bind, h]
    rfl
  rw [hrun, run_unusedIn]

/-- The state at the start of the statements of a block. -/
def entered (loopVar : Option (NodeId × Ident)) (id : NodeId) (s : Checker) : Checker :=
  match loopVar with
  | none => { s with scopes := { block := id } :: s.scopes }
  | some (decl, name) =>
    ((declare name .int .loopVar decl false true).run
      { s with scopes := { block := id } :: s.scopes }).2

theorem run_block (loopVar : Option (NodeId × Ident)) (id : NodeId) (span : Span)
    (body : List Stmt) (s : Checker) :
    ((block loopVar ⟨id, span, body⟩).run s).2 =
      (closeScope.run ((stmts body).run (entered loopVar id s)).2).2 := by
  rw [block]
  cases loopVar with
  | none | some var => rfl

/-- The variable that a loop declares in its body. -/
def loopLocal (loopVar : Option (NodeId × Ident)) : Option LocalVar :=
  loopVar.map fun (decl, name) => ⟨decl, name.name⟩

theorem walks_entered (loopVar : Option (NodeId × Ident)) (id : NodeId) (c : Checker) :
    Walks (loopLocal loopVar).toList [] [] { c with scopes := { block := id } :: c.scopes }
      (entered loopVar id c) := by
  cases loopVar with
  | none => exact .of_reads (.refl _) (List.Sublist.refl _)
  | some var => exact walks_declare var.2 .int .loopVar var.1 false true _

/-- Closing the scope of a block behind its statements. -/
theorem walks_closed {c c₂ : Checker} {id : NodeId} {decls : List LocalVar}
    {ids blocks : List NodeId}
    (h : Walks decls ids blocks { c with scopes := { block := id } :: c.scopes } c₂) :
    Walks decls (id :: ids) (id :: blocks) c (closeScope.run c₂).2 ∧
      (closeScope.run c₂).2.scopes = c.scopes := by
  -- The innermost scope is still that of the block, and the others are as they were.
  obtain ⟨scope, hscopes, hblock⟩ : ∃ scope, c₂.scopes = scope :: c.scopes ∧ scope.block = id := by
    have hblocks := h.blocks_eq
    have houter := h.outer_eq
    cases hscopes : c₂.scopes with
    | nil =>
      rw [hscopes] at hblocks
      contradiction
    | cons scope outer =>
      rw [hscopes, map_cons, map_cons, List.cons.injEq] at hblocks
      rw [hscopes, tail_cons, tail_cons] at houter
      exact ⟨scope, by rw [houter], hblocks.1⟩
  obtain ⟨newLocals, hlocals, hnew⟩ := h.scopeLocals
  rw [run_closeScope hscopes]
  refine ⟨⟨h.declared_eq, h.declSymbols_eq, rfl, rfl, ?_, ?_,
    h.types_subperm.trans (sublist_cons_self _ _).subperm⟩, rfl⟩
  · refine ⟨(id, scope.symbols) :: newLocals, ?_, ?_⟩
    · rw [← hblock]
      exact congrArg _ hlocals
    · intro b hb
      rw [map_cons, mem_cons]
      rcases mem_cons.1 hb with rfl | hb
      · exact .inl rfl
      · exact .inr (hnew b hb)
  · obtain ⟨newResolutions, hresolutions, hsub⟩ := h.resolutions
    exact ⟨newResolutions, hresolutions, hsub.cons id⟩

mutual

/-- Checking a statement declares its variables, and closes the scopes it opens. -/
theorem walks_stmt (s : Stmt) (c : Checker) :
    Walks s.decls s.ids s.blockIds c ((stmt s).run c).2 := by
  match s with
  | .varDecl d =>
    obtain ⟨c₁, type, hreads, hrun⟩ := declaresAfter_varDecl d c
    have hstmt : ((stmt (.varDecl d)).run c).2 = _ := hrun
    rw [hstmt, ← append_nil (Stmt.ids _)]
    have hinit := Walks.of_reads hreads (vars_sublist_ids d.init.toList)
    exact (hinit.of_sublist (sublist_cons_self d.id _)).trans (walks_declare _ _ _ _ _ _ c₁)
  | .assign _ left value =>
    refine .of_reads (reads_assignment left value c) ?_
    rw [map_append]
    exact left.vars_sublist_ids.append value.vars_sublist_ids
  | .call _ call =>
    exact .of_reads (readsVars_call call false c) ((vars_sublist_ids call.args).cons call.id)
  | .defer _ call =>
    exact .of_reads (readsVars_call call true c) ((vars_sublist_ids call.args).cons call.id)
  | .ret _ none | .cleanup _ => exact .of_reads (.refl c) (nil_sublist _)
  | .ret _ (some value) =>
    exact .of_reads (readsVars_returned value c) (vars_sublist_ids (some value).toList)
  | .block body => exact (walks_block none body c).1
  | .ifElse _ cond thenBody none =>
    have hcond := Walks.of_reads (readsVars_condition "if" cond c) cond.vars_sublist_ids
    exact hcond.trans (walks_block none thenBody _).1
  | .ifElse _ cond thenBody (some elseBody) =>
    have hcond := Walks.of_reads (readsVars_condition "if" cond c) cond.vars_sublist_ids
    exact hcond.trans ((walks_block none thenBody _).1.trans (walks_block none elseBody _).1)
  | .whileLoop _ cond body =>
    have hcond := Walks.of_reads (readsVars_condition "while" cond c) cond.vars_sublist_ids
    exact hcond.trans (walks_block none body _).1
  | .forIn id _ var iter body =>
    have hiter := Walks.of_reads (readsVars_iterated iter c) iter.vars_sublist_ids
    have hbody := hiter.trans (walks_block (some (id, var)) body _).1
    exact hbody.of_sublist (sublist_cons_self id _)

theorem walks_block (loopVar : Option (NodeId × Ident)) (b : BlockOf Stmt) (c : Checker) :
    Walks (declsOfBlock (loopLocal loopVar) b) (idsOfBlock b) (blockIdsOfBlock b) c
        ((block loopVar b).run c).2 ∧
      ((block loopVar b).run c).2.scopes = c.scopes := by
  match b with
  | ⟨id, span, body⟩ =>
    rw [run_block]
    exact walks_closed ((walks_entered loopVar id c).trans (walks_stmts body _))

theorem walks_stmts (ss : List Stmt) (c : Checker) :
    Walks (declsOfStmts ss) (idsOfStmts ss) (blockIdsOfStmts ss) c ((stmts ss).run c).2 := by
  match ss with
  | [] => exact .of_reads (.refl c) (List.Sublist.refl _)
  | s :: ss => exact (walks_stmt s c).trans (walks_stmts ss _)

end

section Bare

/-- Checking passes over cleanup. -/
theorem passesCleanup_stmts : PassesCleanup fun ss ss' => stmts ss = stmts ss' where
  nil := rfl
  cons h hss := by cases h <;> simp only [stmts, stmt, block, *]
  cleanup _ _ _ h := h

theorem block_bareBlock (loopVar : Option (NodeId × Ident)) (b : BlockOf Stmt) :
    block loopVar (bareBlock b) = block loopVar b := by
  obtain ⟨_, _, body⟩ := b
  rw [bareBlock, block, block, passesCleanup_stmts.stmts body]

/-- Bodies that differ in their cleanup are checked alike. -/
theorem forM_block_of_bareBlock {bodies bodies' : List Block}
    (h : bodies'.map bareBlock = bodies.map bareBlock) :
    bodies'.forM (block none) = bodies.forM (block none) := by
  have hbare (bodies : List Block) :
      (bodies.map bareBlock).forM (block none) = bodies.forM (block none) := by
    simp only [forM_eq_forM, forM_map, block_bareBlock]
  rw [← hbare bodies', h, hbare]

end Bare

/-- The first part of checking a program: its classes, and the names of its functions. -/
def items (p : Program) : Check Unit := do
  p.classes.forM registerClass
  p.classes.forM classMembers
  p.functions.forM registerFunction

/-- Behind the items of a program, its bodies are checked one after the other. -/
theorem run_program_items (p : Program) :
    ((program p).run {}).2 = ((p.bodies.forM (block none)).run ((items p).run {}).2).2 := by
  have hbodies : p.bodies.forM (block none) = (do
      p.ctorBlocks.forM (block none)
      p.functions.forM fun f => block none f.body) := by
    simp only [Program.bodies, forM_eq_forM, forM_append, forM_map]
  rw [hbodies]
  rfl

/-- Classes and the names of functions read no variable. -/
theorem readsVars_items (p : Program) : ReadsVars (items p) [] [] := by
  refine (readsVars_forM readsVars_registerClass _).after fun _ => ?_
  refine (readsVars_forM readsVars_classMembers _).after fun _ => ?_
  exact readsVars_forM readsVars_registerFunction _

/-- Checking a program comes down to checking its bodies one after the other. -/
theorem run_program (p : Program) :
    ∃ c₀, Reads [] [] [] [] [] {} c₀ ∧
      ((program p).run {}).2 = ((p.bodies.forM (block none)).run c₀).2 :=
  ⟨_, readsVars_items p {}, run_program_items p⟩

theorem walks_bodies (bodies : List Block) (c : Checker) :
    Walks (bodies.flatMap (declsOfBlock none)) (bodies.flatMap idsOfBlock)
      (bodies.flatMap blockIdsOfBlock) c ((bodies.forM (block none)).run c).2 := by
  induction bodies generalizing c with
  | nil => exact .of_reads (.refl c) (List.Sublist.refl _)
  | cons body bodies ih =>
    simp only [flatMap_cons]
    exact (walks_block none body c).1.trans (ih _)

theorem walks_program (p : Program) :
    Walks (p.bodies.flatMap (declsOfBlock none)) (p.bodies.flatMap idsOfBlock)
      (p.bodies.flatMap blockIdsOfBlock) {} ((program p).run {}).2 := by
  obtain ⟨c₀, hreads, hrun⟩ := run_program p
  rw [hrun]
  exact (Walks.of_reads hreads (List.Sublist.refl [])).trans (walks_bodies p.bodies c₀)

end Check

section Tables

theorem lookup_of_mem_of_nodup {α : Type} {entries : List (NodeId × α)} {id : NodeId} {a : α}
    (hmem : (id, a) ∈ entries) (hnodup : (entries.map Prod.fst).Nodup) :
    entries.lookup id = some a := by
  induction entries with
  | nil => contradiction
  | cons entry entries ih =>
    obtain ⟨id', a'⟩ := entry
    rw [map_cons, nodup_cons] at hnodup
    rcases mem_cons.1 hmem with heq | htail
    · obtain ⟨rfl, rfl⟩ := Prod.mk.inj heq
      exact lookup_cons_self
    · have hkey : id ∈ entries.map Prod.fst := mem_map.2 ⟨_, htail, rfl⟩
      have hne : id ≠ id' := fun e => hnodup.1 (e ▸ hkey)
      rw [lookup_cons, beq_false_of_ne hne]
      exact ih htail hnodup.2

variable {p : Program}

/-- With distinct numbers, the declarations of a program are distinct. -/
theorem nodup_decls (hids : p.ids.Nodup) :
    ((p.bodies.flatMap (declsOfBlock none)).map LocalVar.decl).Nodup := by
  refine List.Nodup.sublist ?_ ((ids_bodies_sublist p).nodup hids)
  induction p.bodies with
  | nil => exact List.Sublist.refl _
  | cons body bodies ih =>
    rw [flatMap_cons, map_append, flatMap_cons]
    exact (declsOfBlock_sublist_ids body).append ih

theorem declSymbols_check (p : Program) : p.check.1.declSymbols =
    Checker.entriesFrom 0 (p.bodies.flatMap (declsOfBlock none)) := by
  have h := (Check.walks_program p).declSymbols_eq
  rwa [show (({} : Checker).context.declSymbols) = [] from rfl, append_nil] at h

/-- With distinct numbers, every declaration has one symbol. -/
theorem nodup_declSymbols (hids : p.ids.Nodup) : (p.check.1.declSymbols.map Prod.fst).Nodup := by
  -- the keys are the declarations, the last one in front
  have hkeys : (Checker.entriesFrom 0 (p.bodies.flatMap (declsOfBlock none))).map Prod.fst =
      ((p.bodies.flatMap (declsOfBlock none)).map LocalVar.decl).reverse := by
    rw [Checker.entriesFrom, map_reverse, map_map]
    congr 1
    change List.map (LocalVar.decl ∘ Prod.fst) _ = _
    rw [← map_map, zipIdx_map_fst]
  rw [declSymbols_check, hkeys, nodup_reverse]
  exact nodup_decls hids

/-- With distinct numbers, every variable expression has one symbol. -/
theorem nodup_resolutions (hids : p.ids.Nodup) : (p.check.1.resolutions.map Prod.fst).Nodup := by
  obtain ⟨new, hnew, hsub⟩ := (Check.walks_program p).resolutions
  have hall : p.check.1.resolutions = new := hnew.trans (append_nil _)
  rw [hall, ← nodup_reverse]
  exact (hsub.trans (ids_bodies_sublist p)).nodup hids

/-- With distinct numbers, every node has one type. -/
theorem nodup_exprTypes (hids : p.ids.Nodup) : (p.check.1.exprTypes.map Prod.fst).Nodup := by
  obtain ⟨l, hperm, hl⟩ := (Check.walks_program p).types_subperm
  rw [show (({} : Checker).context.exprTypes) = [] from rfl, map_nil, append_nil] at hl
  exact hperm.nodup_iff.1 ((hl.trans (ids_bodies_sublist p)).nodup hids)

/-- A declared variable has the symbol of its place among all declarations. -/
theorem declSymbol_check (hids : p.ids.Nodup) {x : LocalVar} {symbol : SymbolId}
    (hx : (p.bodies.flatMap (declsOfBlock none))[symbol]? = some x) :
    p.check.1.declSymbol? x.decl = some symbol := by
  refine lookup_of_mem_of_nodup ?_ (nodup_declSymbols hids)
  rw [declSymbols_check, Checker.entriesFrom, mem_reverse, mem_map]
  exact ⟨(x, symbol), mem_zipIdx_iff_getElem?.2 hx, rfl⟩

/-- The tables of a program know its variables. -/
theorem knows_check (hids : p.ids.Nodup) {body : Block} (hbody : body ∈ p.bodies) {x : LocalVar}
    (hx : x ∈ declsOfBlock none body) : p.check.1.Knows x := by
  have hmem : x ∈ p.bodies.flatMap (declsOfBlock none) := mem_flatMap.2 ⟨body, hbody, hx⟩
  obtain ⟨symbol, hsymbol⟩ := mem_iff_getElem?.1 hmem
  have hdeclared : ((Check.program p).run {}).2.declared[symbol]? = some x := by
    rw [(Check.walks_program p).declared_eq]
    exact hsymbol
  rw [Checker.declared, List.getElem?_map, Option.map_eq_some_iff] at hdeclared
  obtain ⟨found, hfound, hlocal⟩ := hdeclared
  refine ⟨symbol, found, declSymbol_check hids hsymbol, hfound, ?_, ?_⟩
  · rw [← hlocal]
  · rw [← hlocal]

mutual

/-- Tables cover what they have an entry for. -/
theorem coversStmt_of (c : Context) (s : Stmt)
    (hdecls : ∀ x ∈ s.decls, (c.declSymbol? x.decl).isSome = true)
    (hblocks : ∀ b ∈ s.blockIds, (c.scopeLocals.lookup b).isSome = true) :
    c.coversStmt s = true := by
  match s with
  | .varDecl d => exact hdecls d.toLocal (mem_singleton_self _)
  | .assign _ _ _ | .call _ _ | .ret _ _ | .defer _ _ | .cleanup _ => rfl
  | .block body => exact coversBlock_of c body hdecls hblocks
  | .ifElse _ _ thenBody none => exact coversBlock_of c thenBody hdecls hblocks
  | .ifElse _ _ thenBody (some elseBody) =>
    rw [Stmt.decls, forall_mem_append] at hdecls
    rw [Stmt.blockIds, forall_mem_append] at hblocks
    rw [Context.coversStmt, Bool.and_eq_true]
    exact ⟨coversBlock_of c thenBody hdecls.1 hblocks.1,
      coversBlock_of c elseBody hdecls.2 hblocks.2⟩
  | .whileLoop _ _ body => exact coversBlock_of c body hdecls hblocks
  | .forIn id _ var _ body =>
    rw [Stmt.decls, declsOfBlock_some, forall_mem_cons] at hdecls
    rw [Context.coversStmt, Bool.and_eq_true]
    exact ⟨hdecls.1, coversBlock_of c body hdecls.2 hblocks⟩

theorem coversBlock_of (c : Context) (b : BlockOf Stmt)
    (hdecls : ∀ x ∈ declsOfBlock none b, (c.declSymbol? x.decl).isSome = true)
    (hblocks : ∀ i ∈ blockIdsOfBlock b, (c.scopeLocals.lookup i).isSome = true) :
    c.coversBlock b = true := by
  match b with
  | ⟨id, _, stmts⟩ =>
    rw [blockIdsOfBlock, forall_mem_cons] at hblocks
    rw [Context.coversBlock, Bool.and_eq_true]
    exact ⟨hblocks.1, coversStmts_of c stmts hdecls hblocks.2⟩

theorem coversStmts_of (c : Context) (ss : List Stmt)
    (hdecls : ∀ x ∈ declsOfStmts ss, (c.declSymbol? x.decl).isSome = true)
    (hblocks : ∀ b ∈ blockIdsOfStmts ss, (c.scopeLocals.lookup b).isSome = true) :
    c.coversStmts ss = true := by
  match ss with
  | [] => rfl
  | s :: ss =>
    rw [declsOfStmts, forall_mem_append] at hdecls
    rw [blockIdsOfStmts, forall_mem_append] at hblocks
    rw [Context.coversStmts, Bool.and_eq_true]
    exact ⟨coversStmt_of c s hdecls.1 hblocks.1, coversStmts_of c ss hdecls.2 hblocks.2⟩

end

/-- Every declaration has a symbol, also where numbers are used twice. -/
theorem isSome_declSymbol_check {body : Block} (hbody : body ∈ p.bodies) {x : LocalVar}
    (hx : x ∈ declsOfBlock none body) : (p.check.1.declSymbol? x.decl).isSome = true := by
  have hmem : x ∈ p.bodies.flatMap (declsOfBlock none) := mem_flatMap.2 ⟨body, hbody, hx⟩
  obtain ⟨symbol, hsymbol⟩ := mem_iff_getElem?.1 hmem
  refine lookup_isSome_iff.2 ⟨(x.decl, symbol), ?_, beq_self_eq_true _⟩
  rw [declSymbols_check, Checker.entriesFrom, mem_reverse, mem_map]
  exact ⟨(x, symbol), mem_zipIdx_iff_getElem?.2 hsymbol, rfl⟩

/-- The tables of a program cover it, whatever its numbers are. -/
theorem check_covers (p : Program) : p.check.1.covers p = true := by
  have hbody : ∀ body ∈ p.bodies, p.check.1.coversBlock body = true := by
    intro body hbody
    refine coversBlock_of _ body (fun x hx => isSome_declSymbol_check hbody hx) ?_
    intro b hb
    obtain ⟨new, hnew, hblocks⟩ := (Check.walks_program p).scopeLocals
    have hmem := hblocks b (mem_flatMap.2 ⟨body, hbody, hb⟩)
    obtain ⟨entry, hentry, rfl⟩ := mem_map.1 hmem
    have htable : entry ∈ p.check.1.scopeLocals := by
      change entry ∈ ((Check.program p).run {}).2.context.scopeLocals
      rw [hnew]
      exact mem_append_left _ hentry
    exact lookup_isSome_iff.2 ⟨entry, htable, beq_self_eq_true _⟩
  rw [Context.covers, Bool.and_eq_true, all_eq_true, all_eq_true]
  constructor
  · intro f hf
    exact hbody f.body (mem_append_right _ (mem_map_of_mem hf))
  · intro body hctor
    exact hbody body (mem_append_left _ hctor)

/-- The tables of a program with distinct numbers cover it. -/
theorem covers_check (_ : p.ids.Nodup) : p.check.1.covers p = true :=
  check_covers p

end Tables

end DeferLang
