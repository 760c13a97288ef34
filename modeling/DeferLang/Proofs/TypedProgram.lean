import DeferLang.Proofs.Bare
import DeferLang.Proofs.Typechecking

/-!
# Checked programs are typed

A declaration brings its symbol into scope, and checking walks a program with more
and more symbols in scope.  If it finds no error, every body of the program is typed
by the rules, without the cleanup that may already stand in it.
-/

namespace DeferLang

open List

/-- A declaration brings one symbol into scope, of the type it gives. -/
def Context.Introduces (c : Context) (decl : NodeId) (type : Ty) (scope scope' : List SymbolId) :
    Prop :=
  ∃ symbol, scope' = symbol :: scope ∧ (decl, symbol) ∈ c.declSymbols ∧
    c.symbolType? symbol = some type ∧ symbol ∉ scope

/-- A state in front of all bodies: nothing is declared and no type is recorded, the types of
fields have a property, and the functions `known` are known. -/
structure Checker.Prepared (P : Ty → Prop) (known : List FunctionInfo) (s : Checker) : Prop where
  scopes : s.scopes = []
  declared : s.declared = []
  exprTypes : s.context.exprTypes = []
  fields : ∀ i ∈ s.context.classes, ∀ field ∈ i.fields, P field.2
  functions : s.context.functions = known

theorem Checker.Prepared.safe {P : Ty → Prop} {known : List FunctionInfo} {s : Checker}
    (h : s.Prepared P known) : s.Safe P [] := by
  have htypes : s.context.symbols.types = [] := by
    have hdeclared := h.declared
    rw [Checker.declared, map_eq_nil_iff] at hdeclared
    rw [SymbolTable.types, hdeclared]
    rfl
  refine ⟨?_, ?_, ?_, ?_, h.fields⟩
  · rw [h.scopes]
    exact fun _ hsc => by contradiction
  · exact fun _ hsymbol => by contradiction
  · rw [h.exprTypes]
    exact fun _ hentry => by contradiction
  · rw [htypes]
    exact fun _ htype => by contradiction

namespace Check

open Checker (Within Safe Clean)

variable {α : Type} {c : Checker} {P : Ty → Prop} {scope : List SymbolId}

/-- A step of checking after which further symbols may be in scope.  If the final state `c` is
reached behind it, then what is in scope behind it satisfies `post`. -/
def Extends (c : Checker) (P : Ty → Prop) (scope : List SymbolId) (pre : Prop) (m : Check Unit)
    (post : List SymbolId → Prop) : Prop :=
  ∀ s, s.Within (m.run s).2 ∧ ((m.run s).2.Within c → s.Safe P scope → pre →
    ∃ scope', post scope' ∧ (m.run s).2.Safe P scope')

namespace Extends

variable {pre : Prop} {m : Check α} {k : α → Check Unit} {m₁ m₂ : Check Unit} {mid : α → Prop}
  {post post' : List SymbolId → Prop}

theorem of_assures {result : Prop} (h : Assures c P scope pre m₁ fun _ => result)
    (hpost : result → post scope) : Extends c P scope pre m₁ post := by
  intro s
  obtain ⟨hstays, hstep⟩ := h s
  refine ⟨hstays, fun hwithin hsafe hpre => ?_⟩
  obtain ⟨hsafe', hresult⟩ := hstep hwithin hsafe hpre
  exact ⟨scope, hpost hresult, hsafe'⟩

theorem pure {a : Unit} (h : pre → post scope) : Extends c P scope pre (Pure.pure a) post :=
  .of_assures (.pure fun h => h) h

theorem after (hm : Assures c P scope pre m mid)
    (hk : ∀ a, Extends c P scope (mid a) (k a) post) : Extends c P scope pre (m >>= k) post := by
  intro s
  obtain ⟨hfirst, hm⟩ := hm s
  obtain ⟨hsecond, hk⟩ := hk (m.run s).1 (m.run s).2
  refine ⟨hfirst.trans hsecond, fun hwithin hsafe hpre => ?_⟩
  obtain ⟨hsafe', hmid⟩ := hm (hsecond.trans hwithin) hsafe hpre
  exact hk hwithin hsafe' hmid

theorem bind (hm : Extends c P scope pre m₁ post)
    (hk : ∀ scope', Extends c P scope' (post scope') m₂ post') :
    Extends c P scope pre (m₁ >>= fun _ => m₂) post' := by
  intro s
  obtain ⟨hfirst, hm⟩ := hm s
  have hsecond := (hk scope (m₁.run s).2).1
  refine ⟨hfirst.trans hsecond, fun hwithin hsafe hpre => ?_⟩
  obtain ⟨scope', hpost, hsafe'⟩ := hm (hsecond.trans hwithin) hsafe hpre
  exact (hk scope' (m₁.run s).2).2 hwithin hsafe' hpost

theorem conseq {pre' : Prop} (h : Extends c P scope pre m₁ post) (hpre : pre' → pre)
    (hpost : ∀ scope', pre' → post scope' → post' scope') : Extends c P scope pre' m₁ post' := by
  intro s
  obtain ⟨hstays, hstep⟩ := h s
  refine ⟨hstays, fun hwithin hsafe hp => ?_⟩
  obtain ⟨scope', hscope', hsafe'⟩ := hstep hwithin hsafe (hpre hp)
  exact ⟨scope', hpost scope' hp hscope', hsafe'⟩

end Extends

/-- A declaration introduces its symbol. -/
theorem extends_declare (name : Ident) (type : Ty) (kind : SymbolKind) (decl : NodeId)
    (isConst initialized : Bool) :
    Extends c P scope (P type) (declare name type kind decl isConst initialized)
      (c.context.Introduces decl type scope) := by
  intro s
  obtain ⟨errors, hrun, herrors, -⟩ := run_declare name type kind decl isConst initialized s
  have hscopes := declaredIn_eq name.name s.declared.length s.scopes
  have hlength : s.declared.length = s.context.symbols.types.length := by
    rw [Checker.declared, SymbolTable.types, length_map, length_map]
  rw [hlength] at hrun hscopes
  have htypes : SymbolTable.types ⟨s.context.symbols.symbols ++
      [declaredSymbol name type kind decl isConst initialized]⟩ =
        s.context.symbols.types ++ [type] :=
    map_append
  rw [hrun]
  refine ⟨{ Within.refl s with
    declSymbols := subset_cons_self _ _, types := ⟨[type], htypes.symm⟩, errors := herrors },
    fun hfinal hsafe hP => ?_⟩
  refine ⟨s.context.symbols.types.length :: scope, ⟨_, rfl, hfinal.declSymbols mem_cons_self,
    ?_, fun hmem => Nat.lt_irrefl _ (hsafe.declared _ hmem)⟩, ?_, ?_, hsafe.exprTypes, ?_,
    hsafe.fields⟩
  · obtain ⟨more, hmore⟩ := hfinal.types
    rw [htypes] at hmore
    rw [Context.symbolType?_eq, ← hmore]
    simp
  · -- the new name goes to the innermost scope, if to any
    rcases hscopes with hsame | ⟨sc, outer, heq, hnew⟩
    · rw [hsame]
      exact fun sc hsc entry hentry => mem_cons_of_mem _ (hsafe.entries sc hsc entry hentry)
    · rw [hnew]
      have hold := hsafe.entries
      rw [heq, forall_mem_cons] at hold
      refine forall_mem_cons.2 ⟨?_, fun sc hsc entry hentry =>
        mem_cons_of_mem _ (hold.2 sc hsc entry hentry)⟩
      intro entry hentry
      rcases mem_append.1 hentry with hentry | hentry
      · exact mem_cons_of_mem _ (hold.1 entry hentry)
      · rw [mem_singleton.1 hentry]
        exact mem_cons_self
  · rw [htypes, length_append]
    refine forall_mem_cons.2 ⟨Nat.lt_succ_self _, fun symbol hsymbol => ?_⟩
    exact Nat.lt_succ_of_lt (hsafe.declared symbol hsymbol)
  · rw [htypes]
    exact forall_mem_append.2 ⟨hsafe.symbols, forall_mem_singleton.2 hP⟩

/-- A declaration that is checked is typed. -/
theorem extends_varDecl (hclean : c.Clean) (hP : Ty.Closed P) (d : VarDecl) :
    Extends c P scope True (varDecl d)
      fun scope' => c.context.TypesStmt scope (.varDecl d) scope' := by
  -- however the type is found, the declaration comes last
  have hdeclare (type : Ty) (initialized : Bool) : Extends c P scope
      (P type ∧ c.context.Declares scope d type)
      (declare d.name type .local d.id d.type.isConst initialized)
      fun scope' => c.context.TypesStmt scope (.varDecl d) scope' := by
    refine (extends_declare d.name type .local d.id d.type.isConst initialized).conseq And.left ?_
    rintro scope' ⟨-, hdeclares⟩ ⟨symbol, rfl, hdecl, htype, hnew⟩
    exact .varDecl hdecl htype hnew hdeclares
  refine .after (assures_initializer hclean hP d.init) fun initType => ?_
  refine .after (Assures.conseq (assures_declaredType hclean hP d initType) (fun h => h)
    fun _ hpre h => And.intro hpre h) fun type => ?_
  refine .after (assures_declarable hclean d type).keep fun _ => ?_
  split
  · rename_i init found hinit
    split
    · rename_i hauto
      refine .after (assures_assignable hclean _ _ _).keep fun _ => ?_
      refine (hdeclare _ _).conseq ?_ fun _ _ h => h
      rintro ⟨⟨⟨hinitializer, hsafe, -, hwritten⟩, -⟩, htakes⟩
      refine ⟨hsafe, .written (hwritten hauto) fun e he => ?_⟩
      rcases hinitializer with ⟨hnone, -⟩ | ⟨e', t, he', ht, -, htyped⟩
      · rw [hnone] at he
        contradiction
      · rw [he', Option.some.injEq] at he
        rw [Option.some.injEq] at ht
        subst he ht
        exact ⟨_, htyped, htakes⟩
    · rename_i hauto
      refine (hdeclare _ _).conseq ?_ fun _ _ h => h
      rintro ⟨⟨-, hsafe, hinferred, -⟩, -⟩
      obtain ⟨e, t, he, htyped, rfl⟩ := hinferred (not_not.1 hauto)
      exact ⟨hsafe, .inferred he htyped⟩
  · rename_i hinit
    refine (hdeclare _ _).conseq ?_ fun _ _ h => h
    rintro ⟨⟨hinitializer, hsafe, hinferred, hwritten⟩, -⟩
    rcases hinitializer with ⟨hnone, -⟩ | ⟨e, t, he, ht, -⟩
    · refine ⟨hsafe, .written (hwritten fun hauto => ?_) fun e he => ?_⟩
      · obtain ⟨e, -, he, -⟩ := hinferred hauto
        rw [hnone] at he
        contradiction
      · rw [hnone] at he
        contradiction
    · exact (hinit e t he ht).elim

theorem extends_openScope (block : NodeId) :
    Extends c P scope True (openScope block) (· = scope) := by
  refine fun s => ⟨{ Within.refl s with }, fun _ hsafe _ => ⟨scope, rfl, { hsafe with
    entries := forall_mem_cons.2 ⟨fun _ hentry => ?_, hsafe.entries⟩ }⟩⟩
  contradiction

/-- What is in scope in a block may be kept in scope behind it. -/
theorem extends_closeScope : Extends c P scope True closeScope (· = scope) := by
  intro s
  cases hscopes : s.scopes with
  | nil =>
    have hrun : (closeScope.run s).2 = s := by
      rw [closeScope, run_get_bind, hscopes]
      rfl
    rw [hrun]
    exact ⟨.refl s, fun _ hsafe _ => ⟨scope, rfl, hsafe⟩⟩
  | cons sc outer =>
    rw [run_closeScope hscopes]
    refine ⟨{ Within.refl s with errors := subset_append_left _ _ },
      fun _ hsafe _ => ⟨scope, rfl, { hsafe with entries := fun inner hinner => ?_ }⟩⟩
    exact hsafe.entries inner (hscopes ▸ mem_cons_of_mem _ hinner)

/-- What is in scope at the start of a block. -/
def Enters (c : Context) (loopVar : Option (NodeId × Ident)) (scope inner : List SymbolId) : Prop :=
  match loopVar with
  | none => inner = scope
  | some (decl, _) => c.Introduces decl .int scope inner

/-- A block that is checked is typed if its statements are. -/
theorem extends_block_of (hP : Ty.Closed P) (loopVar : Option (NodeId × Ident)) (id : NodeId)
    (span : Span) {body : List Stmt} (hbody : ∀ scope, Extends c P scope True (stmts body)
      fun scope' => c.context.TypesStmts scope (bareStmts body) scope') :
    Extends c P scope True (block loopVar ⟨id, span, body⟩) fun scope' =>
      ∃ inner, Enters c.context loopVar scope inner ∧
        c.context.TypesBlock inner (bareBlock ⟨id, span, body⟩) scope' := by
  have hstmts (inner : List SymbolId) : Extends c P inner
      (Enters c.context loopVar scope inner) (stmts body >>= fun _ => closeScope) fun scope' =>
        ∃ inner, Enters c.context loopVar scope inner ∧
          c.context.TypesBlock inner (bareBlock ⟨id, span, body⟩) scope' := by
    refine .bind (Extends.conseq (hbody inner) (fun _ => trivial)
      fun _ hpre h => And.intro hpre h) fun scope' => ?_
    refine extends_closeScope.conseq (fun _ => trivial) ?_
    rintro _ ⟨hinner, htyped⟩ rfl
    exact ⟨inner, hinner, .mk htyped⟩
  rw [block]
  refine Extends.bind (extends_openScope id) fun opened => ?_
  cases loopVar with
  | none =>
    exact hstmts opened
  | some var =>
    refine Extends.bind (Extends.conseq (extends_declare var.2 .int .loopVar var.1
      false true) (fun _ => hP.int) fun _ hpre h => ?_) hstmts
    rw [hpre] at h
    exact h

/-- Behind a branch or a loop, what was in scope before it is in scope again. -/
theorem Extends.restore {loopVar : Option (NodeId × Ident)} {b : Block} {pre : Prop}
    {post : List SymbolId → Prop} (h : Extends c P scope pre (block loopVar b) post) :
    Extends c P scope pre (block loopVar b) fun scope' => scope' = scope ∧ ∃ inner, post inner := by
  intro s
  obtain ⟨hstays, hstep⟩ := h s
  refine ⟨hstays, fun hwithin hsafe hpre => ?_⟩
  obtain ⟨inner, hinner, hsafe'⟩ := hstep hwithin hsafe hpre
  have hscopes := (walks_block loopVar b s).2
  exact ⟨scope, ⟨rfl, inner, hinner⟩, hsafe'.restrict hsafe hscopes hstays⟩

mutual

/-- A statement that is checked is typed. -/
theorem extends_stmt (hclean : c.Clean) (hP : Ty.Closed P) (s : Stmt) (scope : List SymbolId) :
    Extends c P scope True (stmt s)
      fun scope' => c.context.TypesStmts scope s.bare scope' := by
  match s with
  | .varDecl d =>
    exact (extends_varDecl hclean hP d).conseq (fun h => h) fun _ _ h => .cons h .nil
  | .assign _ left value =>
    refine .of_assures (assures_assignment hclean hP left value) ?_
    exact fun ⟨type, found, hleft, hvalue, htakes⟩ => .cons (.assign hleft hvalue htakes) .nil
  | .call _ site =>
    exact .of_assures (assures_call hclean hP site false) fun hcall => .cons (.call hcall) .nil
  | .defer _ site =>
    exact .of_assures (assures_call hclean hP site true) fun hcall => .cons (.defer hcall) .nil
  | .ret _ none => exact .pure fun _ => .cons .ret .nil
  | .ret _ (some value) =>
    refine .after (assures_expr hclean hP value) fun _ => ?_
    exact .of_assures (assures_report hclean rfl _) False.elim
  | .cleanup _ => exact .pure fun _ => .nil
  | .block body =>
    refine (extends_block hclean hP none body scope).conseq (fun h => h) ?_
    rintro _ - ⟨_, rfl, hbody⟩
    exact .cons (.block hbody) .nil
  | .ifElse _ cond thenBody none =>
    refine .after (assures_condition hclean hP "if" cond) fun _ => ?_
    refine (extends_block hclean hP none thenBody scope).restore.conseq (fun _ => trivial) ?_
    rintro _ hcond ⟨rfl, inner, _, rfl, hthen⟩
    exact .cons (.ifThen hcond hthen) .nil
  | .ifElse _ cond thenBody (some elseBody) =>
    refine .after (assures_condition hclean hP "if" cond) fun _ => ?_
    refine .bind ((extends_block hclean hP none thenBody scope).restore.conseq (fun _ => trivial)
      fun _ hpre h => And.intro hpre h) fun behind => ?_
    refine (extends_block hclean hP none elseBody behind).restore.conseq (fun _ => trivial) ?_
    rintro _ ⟨hcond, rfl, inner, _, rfl, hthen⟩ ⟨rfl, inner', _, rfl, helse⟩
    exact .cons (.ifElse hcond hthen helse) .nil
  | .whileLoop _ cond body =>
    refine .after (assures_condition hclean hP "while" cond) fun _ => ?_
    refine (extends_block hclean hP none body scope).restore.conseq (fun _ => trivial) ?_
    rintro _ hcond ⟨rfl, inner, _, rfl, hbody⟩
    exact .cons (.whileLoop hcond hbody) .nil
  | .forIn id _ var iter body =>
    refine .after (assures_expr hclean hP iter) fun found => ?_
    refine .after (assures_reportIf hclean rfl _ _).keep fun _ => ?_
    have hbody := extends_block hclean hP (some (id, var)) body scope
    refine hbody.restore.conseq (fun _ => trivial) ?_
    rintro _ ⟨⟨-, hiter⟩, hcond⟩ ⟨rfl, inner, _, ⟨symbol, rfl, hdecl, htype, hnew⟩, hbody⟩
    simp only [decide_eq_false_iff_not, not_and, not_not] at hcond
    exact .cons (.forIn hiter (or_iff_not_imp_left.2 hcond) hdecl htype hnew hbody) .nil

theorem extends_block (hclean : c.Clean) (hP : Ty.Closed P)
    (loopVar : Option (NodeId × Ident)) (b : BlockOf Stmt) (scope : List SymbolId) :
    Extends c P scope True (block loopVar b) fun scope' =>
      ∃ inner, Enters c.context loopVar scope inner ∧
        c.context.TypesBlock inner (bareBlock b) scope' := by
  match b with
  | ⟨id, span, body⟩ =>
    exact extends_block_of hP loopVar id span (extends_stmts hclean hP body)

theorem extends_stmts (hclean : c.Clean) (hP : Ty.Closed P) (ss : List Stmt)
    (scope : List SymbolId) :
    Extends c P scope True (stmts ss)
      fun scope' => c.context.TypesStmts scope (bareStmts ss) scope' := by
  match ss with
  | [] => exact .pure fun _ => .nil
  | s :: ss =>
    refine .bind (extends_stmt hclean hP s scope) fun behind => ?_
    refine (extends_stmts hclean hP ss behind).conseq (fun _ => trivial) fun scope' hs hss => ?_
    exact hs.append hss

end

section Items

variable {s : Checker} {known : List FunctionInfo}

theorem clean_of_reads {s s' : Checker} (h : Checker.Reads [] [] [] [] [] s s')
    (hclean : s'.Clean) : s.Clean :=
  fun e he => hclean e (h.errors_subset e he)

/-- Making a class known changes no field. -/
theorem prepared_registerClass (d : ClassDef) (h : s.Prepared P known) :
    ((registerClass d).run s).2.Prepared P known := by
  rw [registerClass, run_get_bind]
  split
  · exact ⟨h.scopes, h.declared, h.exprTypes, h.fields, h.functions⟩
  · refine ⟨h.scopes, h.declared, h.exprTypes, ?_, h.functions⟩
    refine forall_mem_append.2 ⟨h.fields, forall_mem_singleton.2 ?_⟩
    exact fun _ hfield => by contradiction

/-- The types of the fields that a class declares. -/
theorem assures_fields (hclean : c.Clean) (hP : Ty.Closed P) {fs : List FieldDef}
    (hfs : ∀ f ∈ fs, f.type.base = .auto → P .unknown) (before : List (String × Ty)) :
    Assures c P scope (∀ field ∈ before, P field.2) (fields before fs)
      fun types => ∀ field ∈ types, P field.2 := by
  induction fs generalizing before with
  | nil => exact .pure fun h => h
  | cons f fs ih =>
    rw [forall_mem_cons] at hfs
    refine ((assures_typeRef hclean hP f.type).conseq (fun _ => hfs.1)
      fun _ hpre h => And.intro hpre h.1).bind fun type => ?_
    refine (assures_reportIf hclean rfl _ _).keep.bind fun _ => .ite ?_ ?_
    · exact assures_report_bind hclean rfl _ ((ih hfs.2 before).conseq False.elim fun _ _ h => h)
    · refine (ih hfs.2 _).conseq ?_ fun _ _ h => h
      rintro ⟨⟨⟨hbefore, htype⟩, -⟩, -⟩
      exact forall_mem_append.2 ⟨hbefore, forall_mem_singleton.2 htype⟩

theorem assures_ctors (hclean : c.Clean) (className : String) (before : List (CtorKind × CtorState))
    (cs : List CtorDecl) : Assures c P scope True (ctors className before cs) fun _ => True := by
  induction cs generalizing before with
  | nil => exact .pure fun h => h
  | cons d cs ih =>
    exact (assures_reportIf hclean rfl _ _).bind fun _ => (ih _).drop

/-- The fields of a class get their types. -/
theorem prepared_classMembers (hP : Ty.Closed P) {d : ClassDef}
    (hfields : ∀ f ∈ d.fields, f.type.base = .auto → P .unknown) (h : s.Prepared P known)
    (hclean : ((classMembers d).run s).2.Clean) : ((classMembers d).run s).2.Prepared P known := by
  have hreads := readsVars_classMembers d s
  have hscopes := hreads.scopes_eq.trans h.scopes
  have hdeclared := hreads.declared_eq.trans h.declared
  have htyped := hreads.types_perm
  rw [h.exprTypes, map_nil, append_nil, perm_nil, map_eq_nil_iff] at htyped
  clear hreads
  revert hclean hscopes hdeclared htyped
  rw [classMembers, run_get_bind]
  split
  · exact fun _ _ _ _ => h
  · split
    · intro hclean hscopes hdeclared htyped
      let s₁ := ((fields [] d.fields).run s).2
      let s₂ := ((ctors d.name.name [] d.ctors).run s₁).2
      -- with the state behind both, no error was reported
      have hclean₂ : s₂.Clean := hclean
      have htypes : Assures s₂ P [] (∀ field ∈ [], P (Prod.snd field)) (fields [] d.fields)
          fun types => ∀ field ∈ types, P field.2 :=
        assures_fields hclean₂ hP hfields []
      have hstates : Assures s₂ P [] True (ctors d.name.name [] d.ctors) fun _ => True :=
        assures_ctors hclean₂ d.name.name [] d.ctors
      obtain ⟨hfirst, hstep⟩ := htypes s
      obtain ⟨hsecond, hstep'⟩ := hstates s₁
      obtain ⟨hsafe, hfieldTypes⟩ := hstep hsecond h.safe fun _ hfield => by contradiction
      obtain ⟨hsafe', -⟩ := hstep' (.refl _) hsafe trivial
      refine ⟨hscopes, hdeclared, htyped, ?_,
        (hfirst.trans hsecond).functions.symm.trans h.functions⟩
      intro i hi
      obtain ⟨i₀, hi₀, rfl⟩ := mem_map.1 hi
      split
      · exact hfieldTypes
      · exact hsafe'.fields i₀ hi₀
    · exact fun _ _ _ _ => h

/-- What every step keeps, a sequence of steps keeps. -/
theorem prepared_forM {step : α → Check PUnit} (hreads : ∀ a, ReadsVars (step a) [] [])
    {as : List α} (hstep : ∀ a ∈ as, ∀ s, ((step a).run s).2.Clean → s.Prepared P known →
      ((step a).run s).2.Prepared P known)
    (h : s.Prepared P known) (hclean : ((as.forM step).run s).2.Clean) :
    ((as.forM step).run s).2.Prepared P known := by
  induction as generalizing s with
  | nil => exact h
  | cons a as ih =>
    rw [forall_mem_cons] at hstep
    have hrest : ReadsVars (as.forM step) [] [] := readsVars_forM hreads as
    have hfirst := clean_of_reads (hrest ((step a).run s).2) hclean
    exact ih hstep.2 (hstep.1 s hfirst h) hclean

/-- A function becomes known under a name of its own. -/
theorem prepared_registerFunction {f : Function} (h : s.Prepared P known)
    (hclean : ((registerFunction f).run s).2.Clean) :
    f.name.name ∉ known.map FunctionInfo.name ∧
      ((registerFunction f).run s).2.Prepared P (known ++ [⟨f.name.name, f.id, f.span⟩]) := by
  revert hclean
  rw [registerFunction]
  split
  · intro hclean
    exact absurd rfl (hclean ⟨.builtinRedefined, f.name.span⟩
      (mem_append_right _ (mem_singleton_self _)))
  · rw [run_get_bind]
    split
    · intro hclean
      exact absurd rfl (hclean ⟨.duplicateFunction f.name.name, f.name.span⟩
        (mem_append_right _ (mem_singleton_self _)))
    · rename_i hnone
      refine fun _ => ⟨?_, h.scopes, h.declared, h.exprTypes, h.fields, ?_⟩
      · rw [Context.function?, h.functions, List.find?_isSome] at hnone
        simpa using hnone
      · change s.context.functions ++ _ = _
        rw [h.functions]

/-- Without an error, the functions of a program become known, each under a name of its own. -/
theorem prepared_registerFunctions {fs : List Function} (h : s.Prepared P known)
    (hclean : ((fs.forM registerFunction).run s).2.Clean)
    (hnodup : (known.map FunctionInfo.name).Nodup) :
    ∃ all, ((fs.forM registerFunction).run s).2.Prepared P all ∧
      all.map FunctionInfo.name = known.map FunctionInfo.name ++ fs.map (·.name.name) ∧
      (all.map FunctionInfo.name).Nodup := by
  induction fs generalizing s known with
  | nil => exact ⟨known, h, (append_nil _).symm, hnodup⟩
  | cons f fs ih =>
    have hrest : ReadsVars (fs.forM registerFunction) [] [] :=
      readsVars_forM readsVars_registerFunction fs
    have hfirst := clean_of_reads (hrest ((registerFunction f).run s).2) hclean
    obtain ⟨hnew, hknown⟩ := prepared_registerFunction h hfirst
    obtain ⟨all, hall, hnames, hnodup'⟩ := ih hknown hclean (by
      rw [map_append]
      exact nodup_append_comm.1 (nodup_cons.2 ⟨hnew, hnodup⟩))
    refine ⟨all, hall, ?_, hnodup'⟩
    rw [hnames, map_append, append_assoc]
    rfl

/-- Without an error, the items of a program are prepared for its bodies, and its functions are
known. -/
theorem prepared_items (hP : Ty.Closed P) {p : Program}
    (hfields : ∀ d ∈ p.classes, ∀ f ∈ d.fields, f.type.base = .auto → P .unknown)
    (hclean : ((items p).run {}).2.Clean) :
    ∃ all, ((items p).run {}).2.Prepared P all ∧
      all.map FunctionInfo.name = p.functions.map (·.name.name) ∧
      (all.map FunctionInfo.name).Nodup := by
  let s₁ := ((p.classes.forM registerClass).run {}).2
  let s₂ := ((p.classes.forM classMembers).run s₁).2
  have hreads₂ : ReadsVars (p.classes.forM classMembers) [] [] :=
    readsVars_forM readsVars_classMembers _
  have hreads₃ : ReadsVars (p.functions.forM registerFunction) [] [] :=
    readsVars_forM readsVars_registerFunction _
  have hclean₂ : s₂.Clean := clean_of_reads (hreads₃ s₂) hclean
  have hclean₁ : s₁.Clean := clean_of_reads (hreads₂ s₁) hclean₂
  have hstart : ({} : Checker).Prepared P [] :=
    ⟨rfl, rfl, rfl, fun _ hi => by contradiction, rfl⟩
  have hclasses : s₁.Prepared P [] :=
    prepared_forM readsVars_registerClass (fun d _ _ _ h => prepared_registerClass d h) hstart
      hclean₁
  have hmembers : s₂.Prepared P [] :=
    prepared_forM readsVars_classMembers
      (fun d hd _ hclean h => prepared_classMembers hP (hfields d hd) h hclean) hclasses hclean₂
  exact prepared_registerFunctions hmembers hclean .nil

end Items

section Bodies

/-- The bodies of a program are typed one by one. -/
theorem extends_bodies (hclean : c.Clean) (hP : Ty.Closed P) (bodies : List Block) :
    Extends c P [] True (bodies.forM (block none)) fun scope' =>
      scope' = [] ∧ ∀ body ∈ bodies, ∃ inner, c.context.TypesBlock [] (bareBlock body) inner := by
  induction bodies with
  | nil => exact .pure fun _ => ⟨rfl, fun _ hbody => by contradiction⟩
  | cons body bodies ih =>
    refine .bind (extends_block hclean hP none body []).restore fun behind => ?_
    intro s
    refine ⟨(ih s).1, fun hwithin hsafe hbody => ?_⟩
    obtain ⟨rfl, inner, _, rfl, htyped⟩ := hbody
    obtain ⟨_, ⟨rfl, hrest⟩, hsafe'⟩ := (ih s).2 hwithin hsafe trivial
    exact ⟨[], ⟨rfl, forall_mem_cons.2 ⟨⟨inner, htyped⟩, hrest⟩⟩, hsafe'⟩

end Bodies

end Check

/-- The tables type a program: its bodies are typed, and its functions are known by names of their
own. -/
structure Context.TypesProgram (c : Context) (p : Program) : Prop where
  bodies : ∀ body ∈ p.bodies, ∃ inner, c.TypesBlock [] (bareBlock body) inner
  functions_eq : c.functions.map FunctionInfo.name = p.functions.map (·.name.name)
  nodup : (p.functions.map (·.name.name)).Nodup

/-- Tables in which a node has one entry at most. -/
structure Context.Functional (c : Context) : Prop where
  exprTypes : (c.exprTypes.map Prod.fst).Nodup
  resolutions : (c.resolutions.map Prod.fst).Nodup
  declSymbols : (c.declSymbols.map Prod.fst).Nodup

/-- With distinct node numbers, the tables have one entry for each node. -/
theorem functional_check {p : Program} (hids : p.ids.Nodup) : p.check.1.Functional :=
  ⟨nodup_exprTypes hids, nodup_resolutions hids, nodup_declSymbols hids⟩

section Programs

variable {p : Program} (hclean : ((Check.program p).run {}).2.Clean)

include hclean

/-- What a check without errors leaves: a typed program, and types that have every property which
the types of fields have. -/
theorem check_spec {P : Ty → Prop} (hP : Ty.Closed P)
    (hfields : ∀ d ∈ p.classes, ∀ f ∈ d.fields, f.type.base = .auto → P .unknown) :
    ((Check.program p).run {}).2.Safe P [] ∧ p.check.1.TypesProgram p := by
  have hrun := Check.run_program_items p
  obtain ⟨hstays, hstep⟩ := Check.extends_bodies hclean hP p.bodies ((Check.items p).run {}).2
  rw [← hrun] at hstays hstep
  have hitems : ((Check.items p).run {}).2.Clean := fun e he => hclean e (hstays.errors he)
  obtain ⟨all, hprepared, hnames, hnodup⟩ := Check.prepared_items hP hfields hitems
  obtain ⟨_, ⟨rfl, htyped⟩, hsafe⟩ := hstep (.refl _) hprepared.safe trivial
  refine ⟨hsafe, htyped, ?_, hnames ▸ hnodup⟩
  change ((Check.program p).run {}).2.context.functions.map FunctionInfo.name = _
  rw [← hstays.functions, hprepared.functions, hnames]

/-- A checked program is typed. -/
theorem typesProgram_check : p.check.1.TypesProgram p :=
  (check_spec hclean Ty.closed_true fun _ _ _ _ _ => trivial).2

end Programs

end DeferLang
