import DeferLang.Proofs.Declarations
import DeferLang.Proofs.TypingRules

/-!
# Checked expressions and calls are typed

If checking finds no error, the tables it leaves type what was checked by the
rules.  What a step of checking records stays in the tables to the end, so every
step is judged by the final state (`Checker.Within`); a step that reports an error
does not lead to a final state without errors.

The argument carries along a property of types that is closed under what checking
does with types (`Ty.Closed`).  If the fields of all classes have the property, so do
all the types that checking records.
-/

namespace DeferLang

open List

/-- A property of types that holds of the types of literals and written types, and of what is
read from a type that has it. -/
structure Ty.Closed (P : Ty → Prop) : Prop where
  int : P .int
  bool : P .bool
  void : P .void
  str : P .str
  sequence : P (.sequence .int)
  object : ∀ name, P (.object name)
  pointer : ∀ t, P t → P (.pointer t)
  reference : ∀ t, P t → P (.reference t)
  deref : ∀ t, P t → P t.deref

theorem Ty.Closed.resultType {P : Ty → Prop} (hP : Ty.Closed P) (op : BinOp) : P op.resultType := by
  unfold BinOp.resultType
  split
  · exact hP.int
  · exact hP.bool

theorem Ty.closed_true : Ty.Closed fun _ => True :=
  ⟨trivial, trivial, trivial, trivial, trivial, fun _ => trivial, fun _ _ => trivial,
    fun _ _ => trivial, fun _ _ => trivial⟩

/-- The types of all symbols, each at its number. -/
def SymbolTable.types (t : SymbolTable) : List Ty :=
  t.symbols.map Symbol.type

theorem Context.symbolType?_eq (c : Context) (symbol : SymbolId) :
    c.symbolType? symbol = c.symbols.types[symbol]? := by
  rw [symbolType?, SymbolTable.get?, SymbolTable.types, List.getElem?_map]

/-- A symbol may change in everything but its type. -/
theorem SymbolTable.types_update (t : SymbolTable) (id : SymbolId) {f : Symbol → Symbol}
    (hf : ∀ s, (f s).type = s.type) : (t.update id f).types = t.types := by
  apply ext_getElem?
  intro n
  rw [types, types, update, List.getElem?_map, List.getElem?_map, List.getElem?_modify]
  cases t.symbols[n]? with
  | none => rfl
  | some s => by_cases hn : id = n <;> simp [hn, hf]

namespace Checker

/-- No fault is an error. -/
def Clean (s : Checker) : Prop :=
  ∀ e ∈ s.errors, e.fault.severity ≠ .error

/-- What one state knows about bodies the other knows too, and their items are the same. -/
structure Within (s c : Checker) : Prop where
  exprTypes : s.context.exprTypes ⊆ c.context.exprTypes
  resolutions : s.context.resolutions ⊆ c.context.resolutions
  declSymbols : s.context.declSymbols ⊆ c.context.declSymbols
  types : s.context.symbols.types <+: c.context.symbols.types
  classes : s.context.classes = c.context.classes
  functions : s.context.functions = c.context.functions
  errors : s.errors ⊆ c.errors

/-- The open scopes hold symbols of `scope` only, which are declared, and all known types have a
property. -/
structure Safe (P : Ty → Prop) (scope : List SymbolId) (s : Checker) : Prop where
  entries : ∀ sc ∈ s.scopes, ∀ entry ∈ sc.entries, entry.2 ∈ scope
  declared : ∀ symbol ∈ scope, symbol < s.context.symbols.types.length
  exprTypes : ∀ entry ∈ s.context.exprTypes, P entry.2
  symbols : ∀ type ∈ s.context.symbols.types, P type
  fields : ∀ i ∈ s.context.classes, ∀ field ∈ i.fields, P field.2

section Within

variable {s s' c : Checker}

theorem Within.refl (s : Checker) : s.Within s :=
  ⟨List.Subset.refl _, List.Subset.refl _, List.Subset.refl _, prefix_refl _, rfl, rfl,
    List.Subset.refl _⟩

theorem Within.trans (h : s.Within s') (h' : s'.Within c) : s.Within c :=
  ⟨List.Subset.trans h.exprTypes h'.exprTypes, List.Subset.trans h.resolutions h'.resolutions,
    List.Subset.trans h.declSymbols h'.declSymbols, h.types.trans h'.types,
    h.classes.trans h'.classes, h.functions.trans h'.functions,
    List.Subset.trans h.errors h'.errors⟩

/-- The type of a symbol is that in the final state. -/
theorem Within.symbolType_eq (h : s.Within c) {symbol : SymbolId}
    (hlt : symbol < s.context.symbols.types.length) :
    c.context.symbolType? symbol = s.context.symbolType? symbol := by
  obtain ⟨more, hmore⟩ := h.types
  rw [Context.symbolType?_eq, Context.symbolType?_eq, ← hmore, List.getElem?_append_left hlt]

end Within

section Safety

variable {P : Ty → Prop} {scope scope' : List SymbolId} {s : Checker}

/-- A name stands for a symbol in scope. -/
theorem Safe.mem_of_lookup (h : s.Safe P scope) {name : String} {symbol : SymbolId}
    (hlookup : s.scopes.lookup name = some symbol) : symbol ∈ scope := by
  obtain ⟨sc, hsc, hget⟩ := exists_of_findSome?_eq_some hlookup
  obtain ⟨front, back, hentries, -⟩ := lookup_eq_some_iff.1 hget
  exact h.entries sc hsc (name, symbol) (by simp [hentries])

/-- With the scopes that were open before, only what was in scope before is. -/
theorem Safe.restrict (h : s.Safe P scope') {before : Checker} (hbefore : before.Safe P scope)
    (hscopes : s.scopes = before.scopes) (hwithin : before.Within s) : s.Safe P scope := by
  refine ⟨?_, ?_, h.exprTypes, h.symbols, h.fields⟩
  · rw [hscopes]
    exact hbefore.entries
  · intro symbol hsymbol
    exact Nat.lt_of_lt_of_le (hbefore.declared symbol hsymbol) hwithin.types.length_le

end Safety

end Checker

namespace Check

open Checker (Within Safe Clean)

variable {α β : Type} {c : Checker} {P : Ty → Prop} {scope : List SymbolId}

/-- A step of checking that changes nothing about what is in scope.  If the final state `c` is
reached behind it, then `pre` in front of it gives `post` behind it. -/
def Assures (c : Checker) (P : Ty → Prop) (scope : List SymbolId) (pre : Prop) (m : Check α)
    (post : α → Prop) : Prop :=
  ∀ s, s.Within (m.run s).2 ∧ ((m.run s).2.Within c → s.Safe P scope → pre →
    (m.run s).2.Safe P scope ∧ post (m.run s).1)

namespace Assures

variable {pre pre' : Prop} {m : Check α} {k : α → Check β} {post post' : α → Prop}
  {mid : α → Prop} {last : β → Prop}

theorem pure {a : α} (h : pre → post a) : Assures c P scope pre (Pure.pure a) post :=
  fun s => ⟨.refl s, fun _ hsafe hpre => ⟨hsafe, h hpre⟩⟩

theorem bind (hm : Assures c P scope pre m mid)
    (hk : ∀ a, Assures c P scope (mid a) (k a) last) : Assures c P scope pre (m >>= k) last := by
  intro s
  obtain ⟨hfirst, hm⟩ := hm s
  obtain ⟨hsecond, hk⟩ := hk (m.run s).1 (m.run s).2
  refine ⟨hfirst.trans hsecond, fun hwithin hsafe hpre => ?_⟩
  obtain ⟨hsafe', hmid⟩ := hm (hsecond.trans hwithin) hsafe hpre
  exact hk hwithin hsafe' hmid

/-- What holds in front of a step may be used in front of it and behind it. -/
theorem conseq (h : Assures c P scope pre m post) (hpre : pre' → pre)
    (hpost : ∀ a, pre' → post a → post' a) : Assures c P scope pre' m post' := by
  intro s
  obtain ⟨hstays, hstep⟩ := h s
  refine ⟨hstays, fun hwithin hsafe hp => ?_⟩
  obtain ⟨hsafe', hresult⟩ := hstep hwithin hsafe (hpre hp)
  exact ⟨hsafe', hpost _ hp hresult⟩

theorem ite {cond : Prop} [Decidable cond] {m' : Check α}
    (hm : Assures c P scope (pre ∧ cond) m post) (hm' : Assures c P scope (pre ∧ ¬cond) m' post) :
    Assures c P scope pre (if cond then m else m') post := by
  split
  · rename_i hcond
    exact hm.conseq (fun hpre => ⟨hpre, hcond⟩) fun _ _ h => h
  · rename_i hcond
    exact hm'.conseq (fun hpre => ⟨hpre, hcond⟩) fun _ _ h => h

/-- What a step gives when nothing is asked of it. -/
theorem drop (h : Assures c P scope True m post) : Assures c P scope pre m post :=
  h.conseq (fun _ => trivial) fun _ _ h => h

/-- What a step gives when nothing is asked of it, besides what held before. -/
theorem keep (h : Assures c P scope True m post) : Assures c P scope pre m fun a => pre ∧ post a :=
  h.conseq (fun _ => trivial) fun _ hpre hpost => ⟨hpre, hpost⟩

end Assures

section Steps

/-- Looking at the state shows the items of the program. -/
theorem assures_get : Assures c P scope True (get : Check Checker) fun s =>
    s.context.classes = c.context.classes ∧ s.context.functions = c.context.functions ∧
      ∀ i ∈ s.context.classes, ∀ field ∈ i.fields, P field.2 :=
  fun s => ⟨.refl s, fun hwithin hsafe _ =>
    ⟨hsafe, hwithin.classes, hwithin.functions, hsafe.fields⟩⟩

theorem within_report (fault : TypingFault) (span : Span) (s : Checker) :
    s.Within ((report fault span).run s).2 :=
  { Within.refl s with errors := subset_append_left _ _ }

/-- A report of an error does not lead to a final state without errors. -/
theorem assures_report (hclean : c.Clean) {fault : TypingFault} (hfault : fault.severity = .error)
    (span : Span) {pre : Prop} {post : Unit → Prop} :
    Assures c P scope pre (report fault span) post := by
  refine fun s => ⟨within_report fault span s, fun hwithin _ _ => ?_⟩
  have hmem : ⟨fault, span⟩ ∈ ((report fault span).run s).2.errors :=
    mem_append_right _ (mem_singleton_self _)
  exact absurd hfault (hclean _ (hwithin.errors hmem))

theorem assures_report_bind (hclean : c.Clean) {fault : TypingFault}
    (hfault : fault.severity = .error) (span : Span) {pre : Prop} {k : Unit → Check α}
    {post : α → Prop} (hk : Assures c P scope False (k ()) post) :
    Assures c P scope pre (report fault span >>= k) post :=
  (assures_report hclean hfault span).bind fun _ => hk

/-- What is reported if a condition holds, fails at the condition. -/
theorem assures_reportIf (hclean : c.Clean) {fault : TypingFault}
    (hfault : fault.severity = .error) (cond : Bool) (span : Span) :
    Assures c P scope True (reportIf cond fault span) fun _ => cond = false := by
  cases cond with
  | false => exact .pure fun _ => rfl
  | true => exact assures_report hclean hfault span

/-- A warning says nothing. -/
theorem assures_warnIf (cond : Bool) (fault : TypingFault) (span : Span) :
    Assures c P scope True (reportIf cond fault span) fun _ => True := by
  cases cond with
  | false => exact .pure fun _ => trivial
  | true => exact fun s => ⟨within_report fault span s, fun _ hsafe _ => ⟨{ hsafe with }, trivial⟩⟩

/-- A type that has the property may be recorded. -/
theorem assures_typed (expr : NodeId) (type : Ty) :
    Assures c P scope (P type) (typed expr type) fun a =>
      a = type ∧ (expr, type) ∈ c.context.exprTypes := by
  refine fun s => ⟨{ Within.refl s with exprTypes := subset_cons_self _ _ },
    fun hwithin hsafe htype => ⟨{ hsafe with exprTypes := ?_ }, rfl,
      hwithin.exprTypes mem_cons_self⟩⟩
  exact forall_mem_cons.2 ⟨htype, hsafe.exprTypes⟩

theorem assures_lookup (name : String) :
    Assures c P scope True (lookup? name) fun found => ∀ symbol ∈ found, symbol ∈ scope :=
  fun s => ⟨.refl s, fun _ hsafe _ => ⟨hsafe, fun _ h => hsafe.mem_of_lookup h⟩⟩

/-- A symbol in scope has a type. -/
theorem assures_symbol (id : SymbolId) :
    Assures c P scope (id ∈ scope) (symbol? id) fun found =>
      ∃ s, found = some s ∧ c.context.symbolType? id = some s.type ∧ P s.type := by
  refine fun s => ⟨.refl s, fun hwithin hsafe hmem => ⟨hsafe, ?_⟩⟩
  have hlt := hsafe.declared id hmem
  have htype : s.context.symbolType? id = some s.context.symbols.types[id] := by
    rw [Context.symbolType?_eq, List.getElem?_eq_getElem hlt]
  obtain ⟨found, hfound, heq⟩ := Option.map_eq_some_iff.1 htype
  refine ⟨found, hfound, ?_, ?_⟩
  · rw [heq, ← htype]
    exact hwithin.symbolType_eq hlt
  · rw [heq]
    exact hsafe.symbols _ (getElem_mem hlt)

/-- A symbol may change in everything but its type. -/
theorem assures_updateSymbol (id : SymbolId) {f : Symbol → Symbol} (hf : ∀ s, (f s).type = s.type) :
    Assures c P scope True (updateSymbol id f) fun _ => True := by
  intro s
  have htypes : ((updateSymbol id f).run s).2.context.symbols.types = s.context.symbols.types :=
    s.context.symbols.types_update id hf
  refine ⟨{ Within.refl s with types := ⟨[], (append_nil _).trans htypes.symm⟩ },
    fun _ hsafe _ => ⟨{ hsafe with declared := ?_, symbols := ?_ }, trivial⟩⟩
  · rw [htypes]
    exact hsafe.declared
  · rw [htypes]
    exact hsafe.symbols

end Steps

section Expressions

variable (hclean : c.Clean) (hP : Ty.Closed P)

include hclean

/-- A variable has the type of the symbol in scope that it is resolved to. -/
theorem assures_resolveVar (expr : NodeId) (name : Ident) :
    Assures c P scope True (resolveVar expr name) fun type => P type ∧
      ∃ symbol, (expr, symbol) ∈ c.context.resolutions ∧ symbol ∈ scope ∧
        c.context.symbolType? symbol = some type := by
  refine (assures_lookup name.name).bind fun found => ?_
  cases found with
  | none => exact assures_report_bind hclean rfl _ (.pure False.elim)
  | some id =>
    have hentry : Assures c P scope (∀ symbol ∈ some id, symbol ∈ scope)
        (updateContext fun c => { c with resolutions := (expr, id) :: c.resolutions })
        fun _ => id ∈ scope ∧ (expr, id) ∈ c.context.resolutions :=
      fun s => ⟨{ Within.refl s with resolutions := subset_cons_self _ _ },
        fun hwithin hsafe hmem =>
          ⟨{ hsafe with }, hmem id rfl, hwithin.resolutions mem_cons_self⟩⟩
    refine hentry.bind fun _ => ?_
    refine (Assures.keep (assures_updateSymbol id ?_)).bind fun _ => ?_
    · exact fun _ => rfl
    refine ((assures_symbol id).conseq (fun h => h.1.1) fun _ hpre h => And.intro hpre.1 h).bind
      fun found => ?_
    cases found with
    | none => exact .pure fun ⟨_, _, h, _⟩ => by contradiction
    | some s =>
      refine .pure fun ⟨⟨hscope, hresolved⟩, _, hs, htype, hsafe⟩ => ?_
      obtain rfl := Option.some.inj hs
      exact ⟨hsafe, id, hresolved, hscope, htype⟩

theorem assures_readVar (expr : NodeId) (name : Ident) :
    Assures c P scope True (readVar expr name) fun type => P type ∧
      ∃ symbol, (expr, symbol) ∈ c.context.resolutions ∧ symbol ∈ scope ∧
        c.context.symbolType? symbol = some type := by
  refine (assures_resolveVar hclean expr name).bind fun type => ?_
  refine (assures_lookup name.name).keep.bind fun found => ?_
  cases found with
  | none => exact .pure And.left
  | some id =>
    refine ((assures_symbol id).conseq (fun h => h.2 id rfl) fun _ hpre _ => hpre.1).bind
      fun found => ?_
    cases found with
    | none => exact .pure fun h => h
    | some s => exact ((assures_warnIf _ _ _).keep.bind fun _ => .pure And.left)

theorem assures_binary (op : BinOp) (left right : Expr) (leftType rightType : Ty) :
    Assures c P scope True (binary op left right leftType rightType) fun type =>
      type = op.resultType ∧ op.Admits leftType rightType := by
  unfold binary
  split
  · rename_i want hwant
    refine (assures_reportIf hclean rfl _ _).bind fun _ => ?_
    refine (assures_reportIf hclean rfl _ _).keep.bind fun _ => ?_
    refine .pure fun ⟨hleft, hright⟩ => ⟨rfl, ?_⟩
    rw [BinOp.Admits, hwant]
    simp only [decide_eq_false_iff_not, not_and, not_not] at hleft hright
    exact ⟨or_iff_not_imp_left.2 hleft, or_iff_not_imp_left.2 hright⟩
  · rename_i hnone
    refine (assures_reportIf hclean rfl _ _).bind fun _ => ?_
    refine .pure fun h => ⟨rfl, ?_⟩
    rw [BinOp.Admits, hnone]
    simp only [decide_eq_false_iff_not] at h
    by_contra hcon
    rw [not_or, not_or, not_and] at hcon
    refine h ⟨hcon.1, hcon.2.1, ?_⟩
    by_cases heq : leftType = rightType
    · exact .inr (eq_false_of_ne_true (hcon.2.2 heq))
    · exact .inl heq

theorem assures_fieldOf (baseType : Ty) (field : Ident) :
    Assures c P scope (P baseType) (fieldOf baseType field) fun type =>
      P type ∧ c.context.FieldType baseType field.name type := by
  refine .ite ?_ ?_
  · refine .pure fun ⟨hbase, hunknown⟩ => ?_
    rw [hunknown] at hbase
    exact ⟨hbase, .inl ⟨hunknown, rfl⟩⟩
  · split
    · exact assures_report_bind hclean rfl _ (.pure False.elim)
    · rename_i className hclass
      refine assures_get.drop.bind fun s => ?_
      split
      · rename_i type htype
        refine .pure fun ⟨hclasses, _, hfields⟩ => ⟨?_, .inr ⟨className, hclass, ?_⟩⟩
        · obtain ⟨info, hinfo, hfield⟩ := Option.bind_eq_some_iff.1 htype
          obtain ⟨front, back, hlist, -⟩ := lookup_eq_some_iff.1 hfield
          exact hfields info (mem_of_find?_eq_some hinfo) (field.name, type) (by simp [hlist])
        · rw [Context.class?, ← hclasses]
          exact htype
      · exact assures_report_bind hclean rfl _ (.pure False.elim)

include hP

/-- Typing an expression follows the rules. -/
theorem assures_expr (e : Expr) :
    Assures c P scope True (expr e) fun type => P type ∧ c.context.HasType scope e type := by
  induction e with
  | bool id span value =>
    refine (assures_typed id .bool).conseq (fun _ => hP.bool) fun type _ h => ?_
    exact h.1 ▸ ⟨hP.bool, .bool h.2⟩
  | int id span value =>
    refine (assures_reportIf hclean rfl _ _).bind fun _ => ?_
    refine (assures_typed id .int).conseq (fun _ => hP.int) fun type hrange h => ?_
    exact h.1 ▸ ⟨hP.int, .int (Nat.not_lt.1 (of_decide_eq_false hrange)) h.2⟩
  | str id span value =>
    refine (assures_typed id .str).conseq (fun _ => hP.str) fun type _ h => ?_
    exact h.1 ▸ ⟨hP.str, .str h.2⟩
  | var id name =>
    refine (assures_readVar hclean id name).bind fun type => ?_
    refine (assures_typed id type).conseq And.left fun a hpre h => ?_
    obtain ⟨htype, symbol, hresolved, hscope, hsymbol⟩ := hpre
    exact h.1 ▸ ⟨htype, .var hresolved hscope hsymbol h.2⟩
  | binary id span op opSpan left right hleft hright =>
    refine hleft.bind fun leftType => hright.keep.bind fun rightType => ?_
    refine (assures_binary hclean op left right _ _).keep.bind fun type => ?_
    refine (assures_typed id type).conseq (fun h => h.2.1 ▸ hP.resultType op) fun a hpre h => ?_
    obtain ⟨⟨⟨-, hleft⟩, -, hright⟩, rfl, hadmits⟩ := hpre
    exact h.1 ▸ ⟨hP.resultType op, .binary hleft hright hadmits h.2⟩
  | field id span base name ih =>
    refine ih.bind fun baseType => ?_
    refine ((assures_fieldOf hclean baseType name).conseq And.left fun _ hpre h =>
      And.intro hpre h).bind fun type => ?_
    refine (assures_typed id type).conseq (fun h => h.2.1) fun a hpre h => ?_
    obtain ⟨⟨-, hbase⟩, htype, hfield⟩ := hpre
    exact h.1 ▸ ⟨htype, .field hbase hfield h.2⟩
  | range id span bound ih =>
    refine ih.bind fun boundType => ?_
    refine (assures_reportIf hclean rfl _ _).keep.bind fun _ => ?_
    refine (assures_typed id _).conseq (fun _ => hP.sequence) fun a hpre h => ?_
    obtain ⟨⟨-, hbound⟩, hint⟩ := hpre
    simp only [decide_eq_false_iff_not, not_and, not_not] at hint
    exact h.1 ▸ ⟨hP.sequence, .range hbound (or_iff_not_imp_left.2 hint) h.2⟩

theorem assures_exprs (es : List Expr) :
    Assures c P scope True (exprs es) fun types =>
      List.Forall₂ (c.context.HasType scope) es types := by
  induction es with
  | nil => exact .pure fun _ => .nil
  | cons e es ih =>
    refine (assures_expr hclean hP e).bind fun type => ?_
    refine ih.keep.bind fun types => ?_
    exact .pure fun h => .cons h.1.2 h.2

/-- The left side of an assignment is typed like any expression, though it is not read. -/
theorem assures_target (e : Expr) :
    Assures c P scope True (target e) fun type => c.context.HasType scope e type := by
  cases e with
  | var id name =>
    refine (assures_resolveVar hclean id name).bind fun type => ?_
    refine (assures_typed id type).conseq And.left fun a hpre h => ?_
    obtain ⟨-, symbol, hresolved, hscope, hsymbol⟩ := hpre
    exact h.1 ▸ .var hresolved hscope hsymbol h.2
  | _ => exact (assures_expr hclean hP _).conseq (fun h => h) fun _ _ h => h.2

/-- An initializer is typed if there is one. -/
theorem assures_initializer (init : Option Expr) :
    Assures c P scope True (initializer init) fun type =>
      (init = none ∧ type = none) ∨
        ∃ e t, init = some e ∧ type = some t ∧ P t ∧ c.context.HasType scope e t := by
  cases init with
  | none => exact .pure fun _ => .inl ⟨rfl, rfl⟩
  | some e => exact (assures_expr hclean hP e).bind fun t => .pure fun h => .inr ⟨e, t, rfl, rfl, h⟩

theorem assures_condition (construct : String) (cond : Expr) :
    Assures c P scope True (condition construct cond) fun _ =>
      c.context.TypesCondition scope cond := by
  refine (assures_expr hclean hP cond).bind fun type => ?_
  refine (assures_reportIf hclean rfl _ _).conseq (fun _ => trivial) fun _ hpre hcond => ?_
  simp only [decide_eq_false_iff_not, not_and, not_not] at hcond
  exact ⟨type, hpre.2, or_iff_not_imp_left.2 hcond⟩

end Expressions

section Statements

variable (hclean : c.Clean)

include hclean

theorem assures_assignable (expected found : Ty) (span : Span) :
    Assures c P scope True (assignable expected found span) fun _ => expected.Takes found := by
  refine (assures_reportIf hclean rfl _ _).conseq (fun _ => trivial) fun _ _ h => ?_
  simp only [decide_eq_false_iff_not, not_and, not_not] at h
  exact or_iff_not_imp_left.2 fun hexpected => or_iff_not_imp_left.2 (h hexpected)

theorem assures_storeTo (name : Ident) :
    Assures c P scope True (storeTo name) fun allowed => allowed = true := by
  refine (assures_lookup name.name).bind fun found => ?_
  cases found with
  | none => exact .pure fun _ => rfl
  | some id =>
    refine ((assures_symbol id).conseq (fun h => h id rfl) fun _ _ h => h).bind fun found => ?_
    cases found with
    | none => exact .pure fun _ => rfl
    | some s =>
      refine .ite ?_ ?_
      · exact assures_report_bind hclean rfl _ (.pure False.elim)
      · refine (Assures.keep (assures_updateSymbol id ?_)).bind fun _ => .pure fun _ => rfl
        exact fun _ => rfl

theorem assures_cleanupArgs (args : List (Expr × Ty)) :
    Assures c P scope True (cleanupArgs args) fun _ => True := by
  induction args with
  | nil => exact .pure fun _ => trivial
  | cons arg args ih =>
    obtain ⟨e, type⟩ := arg
    unfold cleanupArgs
    split
    · exact assures_report_bind hclean rfl _ ih.drop
    · exact ih

/-- A written type other than `auto` is known, unless it is reported. -/
theorem assures_typeRef (hP : Ty.Closed P) (t : TypeRef) :
    Assures c P scope (t.base = .auto → P .unknown) (typeRef t) fun type =>
      P type ∧ (t.base ≠ .auto → type ≠ .unknown) := by
  -- modifiers keep the property, and never give `unknown`
  have hmodified {base : Ty} (hbase : P base) : P (modified base t.modifiers) := by
    unfold modified
    induction t.modifiers using List.reverseRecOn with
    | nil => exact hbase
    | append_singleton ms m ih =>
      rw [foldl_append]
      cases m with
      | pointer => exact hP.pointer _ ih
      | reference => exact hP.reference _ ih
  have hknown {base : Ty} (hbase : base ≠ .unknown) : modified base t.modifiers ≠ .unknown := by
    unfold modified
    induction t.modifiers using List.reverseRecOn with
    | nil => exact hbase
    | append_singleton ms m ih =>
      rw [foldl_append]
      cases m <;> exact Ty.noConfusion
  unfold typeRef
  split
  · exact .pure fun _ => ⟨hmodified hP.int, fun _ => hknown Ty.noConfusion⟩
  · exact .pure fun _ => ⟨hmodified hP.bool, fun _ => hknown Ty.noConfusion⟩
  · exact .pure fun _ => ⟨hmodified hP.void, fun _ => hknown Ty.noConfusion⟩
  · rename_i hauto
    exact .pure fun h => ⟨hmodified (h hauto), fun hne => absurd hauto hne⟩
  · refine assures_get.drop.bind fun s => ?_
    split
    · exact .pure fun _ => ⟨hmodified (hP.object _), fun _ => hknown Ty.noConfusion⟩
    · exact assures_report_bind hclean rfl _ (.pure False.elim)

/-- Nothing is asked of what a declaration demands. -/
theorem assures_declarable (d : VarDecl) (type : Ty) :
    Assures c P scope True (declarable d type) fun _ => True := by
  unfold declarable
  split
  · exact assures_report hclean rfl _
  · exact assures_report hclean rfl _
  · exact assures_report hclean rfl _
  · split
    · exact assures_report hclean rfl _
    · exact (assures_reportIf hclean rfl _ _).conseq (fun h => h) fun _ _ _ => trivial
  · refine (assures_get.conseq (fun h => h) fun _ _ _ => trivial).bind fun s => ?_
    split
    · exact .pure fun h => h
    · refine ((assures_reportIf hclean rfl _ _).conseq (fun h => h) fun _ _ _ => trivial).bind
        fun _ => ?_
      exact (assures_reportIf hclean rfl _ _).conseq (fun h => h) fun _ _ _ => trivial
  · exact .pure fun h => h

variable (hP : Ty.Closed P)

include hP

theorem assures_assignment (left value : Expr) :
    Assures c P scope True (assignment left value) fun _ =>
      ∃ type found, c.context.HasType scope left type ∧ c.context.HasType scope value found ∧
        type.deref.Takes found := by
  refine (assures_target hclean hP left).bind fun type => ?_
  refine (assures_expr hclean hP value).keep.bind fun found => ?_
  split
  · have hstore (allowed : Bool) : Assures c P scope
        (allowed = true ∧ c.context.HasType scope left type ∧ c.context.HasType scope value found)
        (if allowed = true then assignable type.deref found value.span else pure ()) fun _ =>
          ∃ type found, c.context.HasType scope left type ∧ c.context.HasType scope value found ∧
            type.deref.Takes found := by
      refine .ite ?_ (.pure fun h => absurd h.1.1 h.2)
      refine (assures_assignable hclean _ _ _).conseq (fun _ => trivial) fun _ hpre h => ?_
      exact ⟨type, found, hpre.1.2.1, hpre.1.2.2, h⟩
    split
    · refine Assures.bind ?_ hstore
      exact (assures_storeTo hclean _).conseq (fun _ => trivial) fun _ hpre h =>
        ⟨h, hpre.1, hpre.2.2⟩
    · exact (hstore true).conseq (fun h => ⟨rfl, h.1, h.2.2⟩) fun _ _ h => h
  · exact assures_report hclean rfl _

/-- A call that is checked is typed. -/
theorem assures_call (f : Call) (isDeferred : Bool) :
    Assures c P scope True (call f isDeferred) fun _ => c.context.TypesCall scope f := by
  refine (assures_exprs hclean hP f.args).bind fun types => ?_
  refine ((assures_typed f.id .void).conseq (fun _ => hP.void) fun _ hpre _ => hpre).bind
    fun _ => ?_
  refine .ite ?_ ?_
  · split
    · rename_i arg type hargs
      refine (assures_reportIf hclean rfl _ _).conseq (fun _ => trivial) fun _ hpre hcond => ?_
      obtain ⟨hall, hcallee⟩ := hpre
      rw [hargs] at hall
      cases hall with
      | cons harg _ => exact .print hcallee hargs harg (by simpa using hcond)
    · exact assures_report hclean rfl _
  · refine (assures_get.keep).bind fun s => ?_
    refine .ite ?_ (.ite ?_ ?_)
    · refine (assures_reportIf hclean rfl _ _).conseq (fun _ => trivial) fun _ hpre hcond => ?_
      obtain ⟨⟨⟨-, hcallee⟩, -, hfunctions, -⟩, hfunction⟩ := hpre
      rw [Context.function?, hfunctions] at hfunction
      exact .function hcallee hfunction (by simpa using hcond)
    · refine (assures_cleanupArgs hclean _).conseq (fun _ => trivial) fun _ hpre _ => ?_
      obtain ⟨⟨⟨⟨hall, hcallee⟩, -, hfunctions, -⟩, hfunction⟩, -⟩ := hpre
      rw [Context.function?, hfunctions, Option.not_isSome_iff_eq_none] at hfunction
      refine .routine hcallee hfunction fun arg harg => ?_
      obtain ⟨n, hn, rfl⟩ := mem_iff_getElem.1 harg
      obtain ⟨hlength, hget⟩ := forall₂_iff_get.1 hall
      exact ⟨_, hget n hn (hlength ▸ hn)⟩
    · exact assures_report hclean rfl _

/-- The type of a declared variable, from its initializer or as it is written. -/
theorem assures_declaredType (d : VarDecl) (initType : Option Ty) :
    Assures c P scope ((d.init = none ∧ initType = none) ∨
        ∃ e t, d.init = some e ∧ initType = some t ∧ P t ∧ c.context.HasType scope e t)
      (declaredType d initType) fun type => P type ∧
        (d.type.base = .auto →
          ∃ e t, d.init = some e ∧ c.context.HasType scope e t ∧ type = t.deref) ∧
        (d.type.base ≠ .auto → type ≠ .unknown) := by
  refine .ite (.ite ?_ ?_) ?_
  · split
    · refine .pure fun ⟨⟨hinit, hauto⟩, _⟩ => ?_
      rcases hinit with ⟨-, h⟩ | ⟨e, t, hinit, htype, hsafe, htyped⟩
      · contradiction
      · obtain rfl := Option.some.inj htype
        exact ⟨hP.deref _ hsafe, fun _ => ⟨e, _, hinit, htyped, rfl⟩, fun h => absurd hauto h⟩
    · exact assures_report_bind hclean rfl _ (.pure False.elim)
  · exact assures_report_bind hclean rfl _ (.pure False.elim)
  · refine (assures_typeRef hclean hP d.type).conseq (fun h hauto => absurd hauto h.2) ?_
    exact fun type hpre h => ⟨h.1, fun hauto => absurd hauto hpre.2, h.2⟩

end Statements

end Check

end DeferLang
