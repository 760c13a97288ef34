import DeferLang.Proofs.ParsedKinds
import DeferLang.Proofs.PlacedParts

/-!
# Checking and spans

Spans go into checking only to come out again, as the places of symbols, classes
and faults.  Checking a program without its spans therefore learns the same about
it and finds the same faults (`Program.check_unspanned`).  A fault stands at a span of
the program, at the join of two, or at a declared name, so that whatever holds of the
spans of a program and of joins holds of the place of every fault
(`Program.errors_check`).  `Unspans` says both of a step of any state monad, with one
rule for `bind`, and there is one lemma for each function of the checker.
-/

namespace DeferLang

open List

section Judgement

variable {σ α β γ δ : Type}

/-- From a state without spans, `m'` does what `m` does from the state itself: `e` takes the
spans out of states, and `f` out of results.  The step keeps an invariant of the state. -/
def Unspans (I : σ → Prop) (e : σ → σ) (f : α → β) (m : StateM σ α) (m' : StateM σ β) : Prop :=
  ∀ s, I s → m'.run (e s) = (f (m.run s).1, e (m.run s).2) ∧ I (m.run s).2

variable {I : σ → Prop} {e : σ → σ} {f : α → β} {g : γ → δ}

theorem Unspans.pure {a : α} {b : β} (h : f a = b) : Unspans I e f (Pure.pure a) (Pure.pure b) := by
  subst h
  exact fun _ hs => ⟨rfl, hs⟩

theorem Unspans.bind {m : StateM σ α} {m' : StateM σ β} {k : α → StateM σ γ} {k' : β → StateM σ δ}
    (hm : Unspans I e f m m') (hk : ∀ a, Unspans I e g (k a) (k' (f a))) :
    Unspans I e g (m >>= k) (m' >>= k') := by
  intro s hs
  obtain ⟨hrun, hs'⟩ := hm s hs
  rw [StateT.run_bind, StateT.run_bind, hrun]
  exact hk _ _ hs'

theorem Unspans.ite {c : Prop} [Decidable c] {m n : StateM σ α} {m' n' : StateM σ β}
    (hm : Unspans I e f m m') (hn : Unspans I e f n n') :
    Unspans I e f (if c then m else n) (if c then m' else n') := by
  split
  · exact hm
  · exact hn

/-- A step that is only made under a condition. -/
theorem Unspans.after {c : Prop} [Decidable c] {m : StateM σ α} {m' : StateM σ β}
    {k : StateM σ γ} {k' : StateM σ δ} (hm : Unspans I e f m m') (hk : Unspans I e g k k') :
    Unspans I e g (if c then m >>= fun _ => k else k) (if c then m' >>= fun _ => k' else k') :=
  .ite (hm.bind fun _ => hk) hk

/-- A step that looks at the state. -/
theorem Unspans.read {k : σ → StateM σ γ} {k' : σ → StateM σ δ}
    (hk : ∀ s, I s → Unspans I e g (k s) (k' (e s))) : Unspans I e g (get >>= k) (get >>= k') :=
  fun s hs => hk s hs s hs

theorem Unspans.modify {change change' : σ → σ}
    (h : ∀ s, I s → change' (e s) = e (change s) ∧ I (change s)) :
    Unspans I e (fun x => x) (modify change) (modify change') :=
  fun s hs => (h s hs).imp_left (congrArg (Prod.mk ()))

/-- One step for each item of a list. -/
theorem Unspans.forM {i : γ → δ} {step : γ → StateM σ PUnit} {step' : δ → StateM σ PUnit}
    {xs : List γ} (h : ∀ x ∈ xs, Unspans I e (fun x => x) (step x) (step' (i x))) :
    Unspans I e (fun x => x) (xs.forM step) ((xs.map i).forM step') := by
  induction xs with
  | nil => exact .pure rfl
  | cons x xs ih =>
    rw [forall_mem_cons] at h
    exact h.1.bind fun _ => ih h.2

end Judgement

section Unspanned

/-- A symbol without the place of its declaration. -/
def Symbol.unspanned (s : Symbol) : Symbol :=
  { s with span := .blank }

def SymbolTable.unspanned (t : SymbolTable) : SymbolTable :=
  ⟨t.symbols.map Symbol.unspanned⟩

def ClassInfo.unspanned (i : ClassInfo) : ClassInfo :=
  { i with span := .blank }

def FunctionInfo.unspanned (i : FunctionInfo) : FunctionInfo :=
  { i with span := .blank }

/-- The tables about a program without the places of what it declares. -/
def Context.unspanned (c : Context) : Context :=
  { c with
    symbols := c.symbols.unspanned
    classes := c.classes.map ClassInfo.unspanned
    functions := c.functions.map FunctionInfo.unspanned }

def TypingError.unspanned (e : TypingError) : TypingError :=
  ⟨e.fault, .blank⟩

def Checker.unspanned (s : Checker) : Checker where
  context := s.context.unspanned
  scopes := s.scopes
  errors := s.errors.map TypingError.unspanned

end Unspanned

@[simp] theorem Expr.span_unspanned (e : Expr) : e.unspanned.span = .blank :=
  e.span_erase _

@[simp] theorem Expr.id_unspanned (e : Expr) : e.unspanned.id = e.id := by
  cases e <;> rfl

theorem Expr.isLvalue_unspanned (e : Expr) : e.unspanned.isLvalue = e.isLvalue := by
  induction e with
  | field id span base name ih => exact ih
  | _ => rfl

theorem Expr.asVar?_unspanned (e : Expr) : e.unspanned.asVar? = e.asVar?.map Ident.erase := by
  cases e <;> rfl

theorem TypeName.erase_eq_auto (base : TypeName) : base.erase = .auto ↔ base = .auto := by
  cases base <;> simp [TypeName.erase]

@[simp] theorem SymbolTable.get?_unspanned (t : SymbolTable) (id : SymbolId) :
    t.unspanned.get? id = (t.get? id).map Symbol.unspanned :=
  List.getElem?_map

theorem SymbolTable.add_unspanned (t : SymbolTable) (s : Symbol) :
    t.unspanned.add s.unspanned = ((t.add s).1.unspanned, (t.add s).2) := by
  simp [add, unspanned]

theorem SymbolTable.update_unspanned (t : SymbolTable) (id : SymbolId) {change : Symbol → Symbol}
    (h : ∀ s, change s.unspanned = (change s).unspanned) :
    t.unspanned.update id change = (t.update id change).unspanned := by
  have hsymbols : (t.symbols.map Symbol.unspanned).modify id change =
      (t.symbols.modify id change).map Symbol.unspanned := by
    apply ext_getElem?
    intro n
    rw [List.getElem?_modify, List.getElem?_map, List.getElem?_map, List.getElem?_modify]
    cases t.symbols[n]? with
    | none => rfl
    | some s =>
      by_cases hn : id = n
      · simp [hn, h]
      · simp [hn]
  simp only [update, unspanned, hsymbols]

theorem SymbolTable.name_unspanned (t : SymbolTable) (id : SymbolId) :
    t.unspanned.name id = t.name id := by
  rw [name, name, get?_unspanned]
  cases t.get? id <;> rfl

@[simp] theorem Context.class?_unspanned (c : Context) (name : String) :
    c.unspanned.class? name = (c.class? name).map ClassInfo.unspanned :=
  List.find?_map

@[simp] theorem Context.function?_unspanned (c : Context) (name : String) :
    c.unspanned.function? name = (c.function? name).map FunctionInfo.unspanned :=
  List.find?_map

variable {P : Span → Prop}

/-- The faults found so far, and the symbols, stand at places with a property. -/
structure Checker.Placed (P : Span → Prop) (s : Checker) : Prop where
  errors : ∀ e ∈ s.errors, P e.span
  symbols : ∀ x ∈ s.context.symbols.symbols, P x.span

namespace Check

/-- Checking without spans gives the same result, and the state without spans.  What is reported
and declared stands at places with a property. -/
abbrev Agrees (P : Span → Prop) {α : Type} (m m' : Check α) : Prop :=
  Unspans (Checker.Placed P) Checker.unspanned (fun a => a) m m'

section Steps

variable {α : Type} {span : Span} {name : Ident}

theorem agrees_report (fault : TypingFault) (h : P span) :
    Agrees P (report fault span) (report fault .blank) :=
  .modify fun s hs => ⟨by simp [Checker.unspanned, TypingError.unspanned],
    forall_mem_append.2 ⟨hs.errors, forall_mem_singleton.2 h⟩, hs.symbols⟩

theorem agrees_reportIf (cond : Bool) (fault : TypingFault) (h : P span) :
    Agrees P (reportIf cond fault span) (reportIf cond fault .blank) :=
  .ite (agrees_report fault h) (.pure rfl)

theorem agrees_updateContext {change change' : Context → Context}
    (h : ∀ c, change' c.unspanned = (change c).unspanned)
    (hsymbols : ∀ c, (change c).symbols = c.symbols) :
    Agrees P (updateContext change) (updateContext change') :=
  .modify fun s hs => ⟨by simp [Checker.unspanned, h],
    hs.errors, (hsymbols s.context).symm ▸ hs.symbols⟩

theorem agrees_typed (expr : NodeId) (type : Ty) : Agrees P (typed expr type) (typed expr type) :=
  .bind (agrees_updateContext (fun _ => rfl) fun _ => rfl) fun _ => .pure rfl

theorem agrees_updateSymbol (id : SymbolId) {change : Symbol → Symbol}
    (h : ∀ s, change s.unspanned = (change s).unspanned) (hspan : ∀ s, (change s).span = s.span) :
    Agrees P (updateSymbol id change) (updateSymbol id change) := by
  refine .modify fun s hs => ⟨?_, hs.errors, fun x hx => ?_⟩
  · simp only [Checker.unspanned, Context.unspanned, s.context.symbols.update_unspanned id h]
  · change x ∈ s.context.symbols.symbols.modify id change at hx
    obtain ⟨i, hi⟩ := mem_iff_getElem?.1 hx
    rw [List.getElem?_modify] at hi
    obtain ⟨y, hy, hchange⟩ := Option.map_eq_some_iff.1 hi
    have hplace : x.span = y.span := by
      rw [← hchange]
      split
      · exact hspan y
      · rfl
    exact hplace ▸ hs.symbols y (mem_of_getElem? hy)

/-- A symbol is looked up by its number, and stands where it was declared. -/
theorem agrees_symbol (id : SymbolId) {k k' : Option Symbol → Check α}
    (hnone : Agrees P (k none) (k' none))
    (hsome : ∀ x : Symbol, P x.span → Agrees P (k (some x)) (k' (some x.unspanned))) :
    Agrees P (symbol? id >>= k) (symbol? id >>= k') := by
  refine Unspans.read fun s hs => ?_
  have hget : s.unspanned.context.symbols.get? id =
      (s.context.symbols.get? id).map Symbol.unspanned :=
    s.context.symbols.get?_unspanned id
  change Agrees P (k (s.context.symbols.get? id)) (k' (s.unspanned.context.symbols.get? id))
  rw [hget]
  cases hx : s.context.symbols.get? id with
  | none => exact hnone
  | some x => exact hsome x (hs.symbols x (mem_of_getElem? hx))

/-- A name is looked up, and then its symbol. -/
theorem agrees_lookup (name : String) {k k' : Option SymbolId → Check α}
    (hnone : Agrees P (k none) (k' none)) (hsome : ∀ id, Agrees P (k (some id)) (k' (some id))) :
    Agrees P (lookup? name >>= k) (lookup? name >>= k') := by
  refine Unspans.bind (f := fun found => found) (fun _ hs => ⟨rfl, hs⟩) fun found => ?_
  cases found with
  | none => exact hnone
  | some id => exact hsome id

theorem agrees_resolveVar (expr : NodeId) (h : P name.span) :
    Agrees P (resolveVar expr name) (resolveVar expr name.erase) := by
  refine agrees_lookup _ ((agrees_report _ h).bind fun _ => .pure rfl) fun id => ?_
  refine .bind (agrees_updateContext (fun _ => rfl) fun _ => rfl) fun _ => ?_
  refine .bind (agrees_updateSymbol id (fun _ => rfl) fun _ => rfl) fun _ => ?_
  exact agrees_symbol id (.pure rfl) fun _ _ => .pure rfl

theorem agrees_readVar (expr : NodeId) (h : P name.span) :
    Agrees P (readVar expr name) (readVar expr name.erase) := by
  refine (agrees_resolveVar expr h).bind fun type => ?_
  refine agrees_lookup _ (.pure rfl) fun id => agrees_symbol id (.pure rfl) fun x _ => ?_
  exact (agrees_reportIf _ _ h).bind fun _ => .pure rfl

theorem agrees_storeTo (h : P name.span) : Agrees P (storeTo name) (storeTo name.erase) := by
  refine agrees_lookup _ (.pure rfl) fun id => agrees_symbol id (.pure rfl) fun x _ => .ite ?_ ?_
  · exact (agrees_report _ h).bind fun _ => .pure rfl
  · exact .bind (agrees_updateSymbol id (fun _ => rfl) fun _ => rfl) fun _ => .pure rfl

theorem agrees_unusedIn (ids : List SymbolId) : Agrees P (unusedIn ids) (unusedIn ids) := by
  induction ids with
  | nil => exact .pure rfl
  | cons id ids ih =>
    exact agrees_symbol id ih fun x hx => (agrees_reportIf _ _ hx).bind fun _ => ih

theorem agrees_declare (h : P name.span) (type : Ty) (kind : SymbolKind) (decl : NodeId)
    (isConst initialized : Bool) :
    Agrees P (declare name type kind decl isConst initialized)
      (declare name.erase type kind decl isConst initialized) := by
  refine Unspans.read fun s hs => ?_
  obtain ⟨made, hmade⟩ : ∃ made : Symbol, made = ⟨name.name, type, kind, initialized, isConst, decl,
      name.span, false⟩ :=
    ⟨_, rfl⟩
  have hadd : s.unspanned.context.symbols.add made.unspanned =
      ((s.context.symbols.add made).1.unspanned, (s.context.symbols.add made).2) :=
    s.context.symbols.add_unspanned made
  have herased : made.unspanned = ⟨name.erase.name, type, kind, initialized, isConst, decl,
      name.erase.span, false⟩ := by
    rw [hmade]
    rfl
  have hplaced : ∀ x ∈ (s.context.symbols.add made).1.symbols, P x.span :=
    forall_mem_append.2 ⟨hs.symbols, forall_mem_singleton.2 (hmade ▸ h)⟩
  have hname : name.erase.name = name.name := rfl
  have hscopes : s.unspanned.scopes = s.scopes := rfl
  rw [← herased, ← hmade, hadd, hname, hscopes]
  -- the number of the new symbol is the same on both sides
  generalize s.context.symbols.add made = added at hplaced ⊢
  obtain ⟨symbols, id⟩ := added
  refine Unspans.bind (.modify fun _ hs' => ⟨rfl, hs'.errors, hplaced⟩) fun _ => ?_
  cases s.scopes with
  | nil => exact .pure rfl
  | cons scope outer =>
    simp only
    cases scope.insert? name.name id with
    | some scope => exact .modify fun _ hs' => ⟨rfl, hs'.errors, hs'.symbols⟩
    | none => exact agrees_report _ h

theorem agrees_closeScope : Agrees P closeScope closeScope := by
  refine .read fun s _ => ?_
  have hscopes : s.unspanned.scopes = s.scopes := rfl
  rw [hscopes]
  cases s.scopes with
  | nil => exact .pure rfl
  | cons scope outer =>
    refine Unspans.bind (.modify fun _ hs => ⟨rfl, hs.errors, hs.symbols⟩) fun _ => ?_
    refine .bind (agrees_updateContext (fun _ => rfl) fun _ => rfl) fun _ => ?_
    exact agrees_unusedIn _

end Steps

section Types

theorem agrees_fieldOf (baseType : Ty) {field : Ident} (h : P field.span) :
    Agrees P (fieldOf baseType field) (fieldOf baseType field.erase) := by
  refine .ite (.pure rfl) ?_
  cases baseType.className? with
  | none => exact (agrees_report _ h).bind fun _ => .pure rfl
  | some className =>
    refine .read fun s _ => ?_
    have hfield : (s.unspanned.context.class? className).bind (·.fieldType? field.name) =
        (s.context.class? className).bind (·.fieldType? field.name) := by
      simp only [Checker.unspanned, Context.class?_unspanned]
      cases s.context.class? className <;> rfl
    have hname : field.erase.name = field.name := rfl
    rw [hname, hfield]
    cases (s.context.class? className).bind (·.fieldType? field.name) with
    | none => exact (agrees_report _ h).bind fun _ => .pure rfl
    | some type => exact .pure rfl

theorem agrees_typeRef {t : TypeRef} (h : t.outline.Every P) :
    Agrees P (typeRef t) (typeRef t.erase) := by
  obtain ⟨span, isConst, base, modifiers⟩ := t
  cases base with
  | named name =>
    have hname : P name.span := by
      simp only [TypeRef.outline, TypeName.outlines, Outline.every_node, forall_mem_singleton] at h
      exact h.2.at
    refine .read fun s _ => ?_
    have hclass : s.unspanned.context.class? name.name =
        (s.context.class? name.name).map ClassInfo.unspanned :=
      s.context.class?_unspanned name.name
    simp only [TypeRef.erase, TypeName.erase, Ident.erase, hclass]
    cases s.context.class? name.name with
    | none => exact (agrees_report _ hname).bind fun _ => .pure rfl
    | some info => exact .pure rfl
  | int | bool | void | auto => exact .pure rfl

theorem agrees_declaredType {d : VarDecl} (h : d.type.outline.Every P) (initType : Option Ty) :
    Agrees P (declaredType d initType) (declaredType d.unspanned initType) := by
  have hbase : d.unspanned.type.base = .auto ↔ d.type.base = .auto :=
    d.type.base.erase_eq_auto
  simp only [declaredType, hbase]
  refine .ite (.ite ?_ ?_) (agrees_typeRef h)
  · cases initType with
    | none => exact (agrees_report _ h.at).bind fun _ => .pure rfl
    | some type => exact .pure rfl
  · exact (agrees_report _ h.at).bind fun _ => .pure rfl

theorem agrees_specialMembers {d : VarDecl} (h : P d.span) (className : String) :
    Agrees P (specialMembers d className) (specialMembers d.unspanned className) := by
  refine .read fun s _ => ?_
  have hclass : s.unspanned.context.class? className =
      (s.context.class? className).map ClassInfo.unspanned :=
    s.context.class?_unspanned className
  have hinit : d.unspanned.init.isSome = d.init.isSome := Option.isSome_map
  simp only [hclass, hinit]
  cases s.context.class? className with
  | none => exact .pure rfl
  | some info => exact (agrees_reportIf _ _ h).bind fun _ => agrees_reportIf _ _ h

theorem agrees_declarable {d : VarDecl} (h : d.outline.Every P) (type : Ty) :
    Agrees P (declarable d type) (declarable d.unspanned type) := by
  obtain ⟨hspan, htype, -, hinit⟩ := VarDecl.every_outline.1 h
  cases type with
  | void => exact agrees_report _ htype.at
  | str | sequence elem => exact agrees_report _ hspan
  | object className => exact agrees_specialMembers hspan className
  | reference target =>
    obtain ⟨id, span, type, name, init⟩ := d
    cases init with
    | none => exact agrees_report _ hspan
    | some e =>
      change Agrees P (reportIf (!e.isLvalue) (.referenceToValue name.name) e.span)
        (reportIf (!e.unspanned.isLvalue) (.referenceToValue name.name) e.unspanned.span)
      rw [e.isLvalue_unspanned, e.span_unspanned]
      exact agrees_reportIf _ _ (Expr.span_of_every (hinit e rfl))
  | _ => exact .pure rfl

theorem agrees_cleanupArgs {args : List Expr} (h : ∀ e ∈ args, e.outline.Every P)
    (types : List Ty) :
    Agrees P (cleanupArgs (args.zip types))
      (cleanupArgs ((args.map Expr.unspanned).zip types)) := by
  induction args generalizing types with
  | nil => exact .pure rfl
  | cons arg args ih =>
    rw [forall_mem_cons] at h
    cases types with
    | nil => exact .pure rfl
    | cons type types =>
      have hspan := arg.span_unspanned
      cases type with
      | sequence elem =>
        simp only [map_cons, zip_cons_cons, cleanupArgs, hspan]
        exact (agrees_report _ (Expr.span_of_every h.1)).bind fun _ => ih h.2 types
      | _ => exact ih h.2 types

/-- What is wrong with the arguments of a `print`. -/
theorem agrees_printArgs {span : Span} (hspan : P span) {args : List Expr}
    (h : ∀ e ∈ args, e.outline.Every P) (types : List Ty) :
    Agrees P
      (match args, types with
        | [arg], [type] =>
          reportIf (!type.deref.isPrintable) (.notPrintable type.deref) arg.span
        | _, _ => report (.printArity args.length) span)
      (match args.map Expr.unspanned, types with
        | [arg], [type] =>
          reportIf (!type.deref.isPrintable) (.notPrintable type.deref) arg.span
        | _, _ => report (.printArity (args.map Expr.unspanned).length) .blank) := by
  rw [length_map]
  match args, types with
  | [arg], [type] =>
    simp only [map_cons, map_nil, arg.span_unspanned]
    exact agrees_reportIf _ _ (Expr.span_of_every (h arg mem_cons_self))
  | [], _ => exact agrees_report _ hspan
  | [_], [] => exact agrees_report _ hspan
  | [_], _ :: _ :: _ => exact agrees_report _ hspan
  | _ :: _ :: _, _ => exact agrees_report _ hspan

end Types

section Expressions

variable (hjoin : ∀ a b, P a → P b → P (Span.join a b))

include hjoin

theorem agrees_binary (op : BinOp) {left right : Expr} (hleft : P left.span)
    (hright : P right.span) (leftType rightType : Ty) :
    Agrees P (binary op left right leftType rightType)
      (binary op left.unspanned right.unspanned leftType rightType) := by
  unfold binary
  rw [left.span_unspanned, right.span_unspanned]
  cases op.operandType? with
  | some want =>
    refine (agrees_reportIf _ _ hleft).bind fun _ => (agrees_reportIf _ _ hright).bind fun _ => ?_
    exact .pure rfl
  | none => exact (agrees_reportIf _ _ (hjoin _ _ hleft hright)).bind fun _ => .pure rfl

theorem agrees_expr {e : Expr} (h : e.outline.Every P) : Agrees P (expr e) (expr e.unspanned) := by
  induction e with
  | bool id span value => exact agrees_typed id _
  | int id span value => exact (agrees_reportIf _ _ h.at).bind fun _ => agrees_typed id _
  | str id span value => exact agrees_typed id _
  | var id name => exact (agrees_readVar id h.at).bind fun type => agrees_typed id type
  | binary id span op opSpan left right ihl ihr =>
    obtain ⟨-, hleft, -, hright⟩ := Expr.every_binary.1 h
    refine (ihl hleft).bind fun leftType => (ihr hright).bind fun rightType => ?_
    refine Unspans.bind ?_ fun type => agrees_typed id type
    exact agrees_binary hjoin op (Expr.span_of_every hleft) (Expr.span_of_every hright) _ _
  | field id span base name ih =>
    obtain ⟨-, hbase, hname⟩ := Expr.every_field.1 h
    refine (ih hbase).bind fun baseType => ?_
    exact (agrees_fieldOf baseType hname).bind fun type => agrees_typed id type
  | range id span bound ih =>
    obtain ⟨-, hbound⟩ := Expr.every_range.1 h
    refine (ih hbound).bind fun type => ?_
    rw [bound.span_erase]
    exact (agrees_reportIf _ _ (Expr.span_of_every hbound)).bind fun _ => agrees_typed id _

theorem agrees_exprs {es : List Expr} (h : ∀ e ∈ es, e.outline.Every P) :
    Agrees P (exprs es) (exprs (es.map Expr.unspanned)) := by
  induction es with
  | nil => exact .pure rfl
  | cons e es ih =>
    rw [forall_mem_cons] at h
    exact (agrees_expr hjoin h.1).bind fun type => (ih h.2).bind fun types => .pure rfl

theorem agrees_target {e : Expr} (h : e.outline.Every P) :
    Agrees P (target e) (target e.unspanned) := by
  cases e with
  | var id name => exact (agrees_resolveVar id h.at).bind fun type => agrees_typed id type
  | _ => exact agrees_expr hjoin h

theorem agrees_assignment {left value : Expr} (hleft : left.outline.Every P)
    (hvalue : value.outline.Every P) :
    Agrees P (assignment left value) (assignment left.unspanned value.unspanned) := by
  refine (agrees_target hjoin hleft).bind fun leftType => ?_
  refine (agrees_expr hjoin hvalue).bind fun valueType => ?_
  have hassign (cond : Bool) (fault : TypingFault) :=
    agrees_reportIf cond fault (Expr.span_of_every hvalue)
  rw [left.isLvalue_unspanned, left.asVar?_unspanned, left.span_unspanned, value.span_unspanned]
  refine .ite ?_ (agrees_report _ (Expr.span_of_every hleft))
  have hstore {name : Ident} (hname : left.asVar? = some name) : P name.span := by
    cases left with
    | var id other => exact Option.some.inj hname ▸ hleft.at
    | _ => contradiction
  cases hname : left.asVar? with
  | none => exact hassign _ _
  | some name =>
    refine (agrees_storeTo (hstore hname)).bind fun allowed => .ite ?_ (.pure rfl)
    exact hassign _ _

theorem agrees_condition (construct : String) {cond : Expr} (h : cond.outline.Every P) :
    Agrees P (condition construct cond) (condition construct cond.unspanned) := by
  refine (agrees_expr hjoin h).bind fun type => ?_
  rw [cond.span_unspanned]
  exact agrees_reportIf _ _ (Expr.span_of_every h)

theorem agrees_call {c : Call} (h : c.outline.Every P) (isDeferred : Bool) :
    Agrees P (call c isDeferred) (call c.unspanned isDeferred) := by
  obtain ⟨hspan, hcallee, hevery⟩ := Call.every_outline.1 h
  refine (agrees_exprs hjoin hevery).bind fun types => (agrees_typed c.id _).bind fun _ =>
    .ite ?_ ?_
  · exact agrees_printArgs hspan hevery types
  refine .read fun s _ => ?_
  have hknown : (s.unspanned.context.function? c.callee.name).isSome =
      (s.context.function? c.callee.name).isSome := by
    simp [Checker.unspanned]
  have hargs : c.unspanned.args = c.args.map Expr.unspanned := rfl
  have hname : c.unspanned.callee.name = c.callee.name := rfl
  rw [hargs, hname, hknown, isEmpty_map, length_map]
  refine .ite (agrees_reportIf _ _ hspan) (.ite ?_ (agrees_report _ hcallee))
  exact agrees_cleanupArgs hevery types

theorem agrees_initializer {init : Option Expr} (h : ∀ e, init = some e → e.outline.Every P) :
    Agrees P (initializer init) (initializer (init.map Expr.unspanned)) := by
  cases init with
  | none => exact .pure rfl
  | some e => exact (agrees_expr hjoin (h e rfl)).bind fun type => .pure rfl

theorem agrees_varDecl {d : VarDecl} (h : d.outline.Every P) :
    Agrees P (varDecl d) (varDecl d.unspanned) := by
  obtain ⟨-, htype, hname, hevery⟩ := VarDecl.every_outline.1 h
  refine (agrees_initializer hjoin hevery).bind fun initType => ?_
  refine (agrees_declaredType htype initType).bind fun type => ?_
  refine (agrees_declarable h type).bind fun _ => ?_
  have hbase : d.unspanned.type.base ≠ .auto ↔ d.type.base ≠ .auto :=
    not_congr d.type.base.erase_eq_auto
  have hdeclare := agrees_declare hname type .local d.id d.type.isConst
  have hinit : d.unspanned.init = d.init.map Expr.unspanned := rfl
  simp only [hbase, hinit, Option.isSome_map]
  cases hd : d.init with
  | none => exact hdeclare _
  | some e =>
    cases initType with
    | none => exact hdeclare _
    | some found =>
      simp only [Option.map_some, e.span_unspanned]
      exact .after (agrees_reportIf _ _ (Expr.span_of_every (hevery e hd))) (hdeclare _)

end Expressions

section Statements

mutual

theorem agrees_stmt (hjoin : ∀ a b, P a → P b → P (Span.join a b)) (s : Stmt) (h : s.Every P) :
    Agrees P (stmt s) (stmt s.unspanned) := by
  match s with
  | .varDecl d => exact agrees_varDecl hjoin (Stmt.every_varDecl.1 h)
  | .assign _ left value =>
    obtain ⟨-, hleft, hvalue⟩ := Stmt.every_assign.1 h
    exact agrees_assignment hjoin hleft hvalue
  | .call _ c => exact agrees_call hjoin (Stmt.every_call.1 h).2 false
  | .block body => exact agrees_block hjoin none nofun body (Stmt.every_block.1 h)
  | .ifElse _ cond thenBody none =>
    obtain ⟨-, hcond, hthen⟩ := Stmt.every_ifThen.1 h
    refine (agrees_condition hjoin "if" hcond).bind fun _ => ?_
    exact agrees_block hjoin none nofun thenBody hthen
  | .ifElse _ cond thenBody (some elseBody) =>
    obtain ⟨-, hcond, hthen, helse⟩ := Stmt.every_ifElse.1 h
    refine (agrees_condition hjoin "if" hcond).bind fun _ => ?_
    refine (agrees_block hjoin none nofun thenBody hthen).bind fun _ => ?_
    exact agrees_block hjoin none nofun elseBody helse
  | .whileLoop _ cond body =>
    obtain ⟨-, hcond, hbody⟩ := Stmt.every_whileLoop.1 h
    refine (agrees_condition hjoin "while" hcond).bind fun _ => ?_
    exact agrees_block hjoin none nofun body hbody
  | .forIn id _ var iter body =>
    obtain ⟨-, hvar, hiter, hbody⟩ := Stmt.every_forIn.1 h
    refine (agrees_expr hjoin hiter).bind fun found => ?_
    rw [iter.span_erase]
    refine (agrees_reportIf _ _ (Expr.span_of_every hiter)).bind fun _ => ?_
    refine agrees_block hjoin (some (id, var)) (fun x hx => ?_) body hbody
    rw [← Option.some.inj hx]
    exact hvar
  | .ret _ none => exact .pure rfl
  | .ret _ (some value) =>
    obtain ⟨-, hvalue⟩ := Stmt.every_ret_some.1 h
    refine (agrees_expr hjoin hvalue).bind fun _ => ?_
    rw [value.span_erase]
    exact agrees_report _ (Expr.span_of_every hvalue)
  | .defer _ c => exact agrees_call hjoin (Stmt.every_defer.1 h).2 true
  | .cleanup _ => exact .pure rfl

theorem agrees_block (hjoin : ∀ a b, P a → P b → P (Span.join a b))
    (loopVar : Option (NodeId × Ident)) (hloopVar : ∀ x, loopVar = some x → P x.2.span)
    (b : BlockOf Stmt) (h : (outlineOfBlock b).Every P) :
    Agrees P (block loopVar b)
      (block (loopVar.map fun v => (v.1, v.2.erase)) (Block.unspanned b)) := by
  match b with
  | ⟨id, _, body⟩ =>
    have hbody := agrees_stmts hjoin body (every_outlineOfBlock.1 h).2
    refine Unspans.bind (.modify fun _ hs => ⟨rfl, hs.errors, hs.symbols⟩) fun _ => ?_
    cases loopVar with
    | none => exact hbody.bind fun _ => agrees_closeScope
    | some v =>
      refine (agrees_declare (hloopVar v rfl) .int .loopVar v.1 false true).bind fun _ => ?_
      exact hbody.bind fun _ => agrees_closeScope

theorem agrees_stmts (hjoin : ∀ a b, P a → P b → P (Span.join a b)) (ss : List Stmt)
    (h : ∀ o ∈ outlinesOfStmts ss, o.Every P) :
    Agrees P (stmts ss) (stmts (eraseStmts (fun id => id) ss)) := by
  match ss with
  | [] => exact .pure rfl
  | s :: ss =>
    obtain ⟨hs, hss⟩ := every_cons.1 h
    exact (agrees_stmt hjoin s hs).bind fun _ => agrees_stmts hjoin ss hss

end

end Statements

section Items

theorem agrees_registerClass {c : ClassDef} (h : P c.name.span) :
    Agrees P (registerClass c) (registerClass c.unspanned) := by
  refine .read fun s _ => ?_
  have hknown : (s.unspanned.context.class? c.unspanned.name.name).isSome =
      (s.context.class? c.name.name).isSome := by
    simp [Checker.unspanned]
  rw [hknown]
  refine .ite (agrees_report _ h) (agrees_updateContext (fun ctx => ?_) fun _ => rfl)
  simp [Context.unspanned, ClassInfo.unspanned]

theorem agrees_fields {fs : List FieldDef} (h : ∀ f ∈ fs, f.outline.Every P)
    (before : List (String × Ty)) :
    Agrees P (fields before fs) (fields before (fs.map FieldDef.erase)) := by
  induction fs generalizing before with
  | nil => exact .pure rfl
  | cons f fs ih =>
    rw [forall_mem_cons] at h
    obtain ⟨-, htype, hname⟩ := FieldDef.every_outline.1 h.1
    refine (agrees_typeRef htype).bind fun type => ?_
    refine (agrees_reportIf _ _ htype.at).bind fun _ => ?_
    exact .ite ((agrees_report _ hname).bind fun _ => ih h.2 before) (ih h.2 _)

theorem agrees_ctors (className : String) {cs : List CtorDecl} (h : ∀ c ∈ cs, c.outline.Every P)
    (before : List (CtorKind × CtorState)) :
    Agrees P (ctors className before cs)
      (ctors className before (cs.map CtorDecl.unspanned)) := by
  induction cs generalizing before with
  | nil => exact .pure rfl
  | cons c cs ih =>
    rw [forall_mem_cons] at h
    have hstate : c.unspanned.body.state = c.body.state := by
      obtain ⟨span, kind, isExplicit, body⟩ := c
      cases body <;> rfl
    simp only [map_cons, ctors, hstate]
    exact (agrees_reportIf _ _ h.1.at).bind fun _ => ih h.2 _

theorem agrees_classMembers {c : ClassDef} (h : c.outline.Every P) :
    Agrees P (classMembers c) (classMembers c.unspanned) := by
  obtain ⟨-, -, hfields, hctors⟩ := ClassDef.every_outline.1 h
  refine .read fun s _ => ?_
  have hclass : s.unspanned.context.class? c.name.name =
      (s.context.class? c.name.name).map ClassInfo.unspanned :=
    s.context.class?_unspanned c.name.name
  have hname : c.unspanned.name.name = c.name.name := rfl
  rw [hname, hclass]
  cases s.context.class? c.name.name with
  | none => exact .pure rfl
  | some info =>
    refine .ite ?_ (.pure rfl)
    refine (agrees_fields hfields []).bind fun fieldTypes => ?_
    refine (agrees_ctors c.name.name hctors []).bind fun ctorStates => ?_
    refine agrees_updateContext (fun ctx => ?_) fun _ => rfl
    simp only [Context.unspanned, map_map]
    congr 1
    apply map_congr_left
    intro i _
    by_cases hi : i.name = c.name.name
    · simp [ClassInfo.unspanned, hi]
    · simp [ClassInfo.unspanned, hi]

theorem agrees_registerFunction {f : Function} (h : P f.name.span) :
    Agrees P (registerFunction f) (registerFunction f.unspanned) := by
  refine .ite (agrees_report _ h) (.read fun s _ => ?_)
  have hknown : (s.unspanned.context.function? f.unspanned.name.name).isSome =
      (s.context.function? f.name.name).isSome := by
    simp [Checker.unspanned]
  rw [hknown]
  refine .ite (agrees_report _ h) (agrees_updateContext (fun ctx => ?_) fun _ => rfl)
  simp [Context.unspanned, FunctionInfo.unspanned]

end Items

end Check

/-- The bodies of the special members of a program without spans. -/
theorem Program.ctorBlocks_unspanned (p : Program) :
    p.unspanned.ctorBlocks = p.ctorBlocks.map Block.unspanned := by
  have hblock : CtorDecl.block? ∘ CtorDecl.unspanned =
      fun c => c.block?.map Block.unspanned := by
    funext ⟨span, kind, isExplicit, body⟩
    cases body <;> rfl
  simp only [ctorBlocks, Program.erase, ClassDef.erase, flatMap_map, map_flatMap,
    filterMap_map, map_filterMap, hblock]

theorem Check.agrees_program (hjoin : ∀ a b, P a → P b → P (Span.join a b)) {p : Program}
    (h : p.Placed P) : Agrees P (program p) (program p.unspanned) := by
  have hclass {c : ClassDef} (hc : c ∈ p.classes) := ClassDef.every_outline.1 (h.classes c hc)
  have hfunction {f : Function} (hf : f ∈ p.functions) :=
    Function.every_outline.1 (h.functions f hf)
  refine Unspans.bind (.forM fun c hc => agrees_registerClass (hclass hc).2.1) fun _ => ?_
  refine Unspans.bind (.forM fun c hc => agrees_classMembers (h.classes c hc)) fun _ => ?_
  refine Unspans.bind (.forM fun f hf => agrees_registerFunction (hfunction hf).2.1) fun _ => ?_
  rw [p.ctorBlocks_unspanned]
  refine Unspans.bind (.forM fun b hb => ?_) fun _ => ?_
  · exact agrees_block hjoin none nofun b (h.ctorBlocks hb)
  · exact Unspans.forM (i := Function.unspanned) fun f hf =>
      agrees_block hjoin none nofun f.body (hfunction hf).2.2

/-- Checking learns the same and finds the same faults, wherever things stand. -/
theorem Program.check_unspanned (p : Program) :
    p.unspanned.check = (p.check.1.unspanned, p.check.2.map TypingError.unspanned) := by
  have hplaced : p.Placed fun _ => True := ⟨fun _ _ _ _ => trivial, fun _ _ _ _ => trivial⟩
  obtain ⟨hrun, -⟩ := Check.agrees_program (fun _ _ _ _ => trivial) hplaced {} ⟨nofun, nofun⟩
  have hstart : Checker.unspanned {} = {} := rfl
  rw [hstart] at hrun
  simp only [check, hrun]
  rfl

/-- Checking finds faults at parts of the program, or at joins of two parts. -/
theorem Program.errors_check (hjoin : ∀ a b, P a → P b → P (Span.join a b)) {p : Program}
    (h : p.Placed P) : ∀ e ∈ p.check.2, P e.span :=
  (Check.agrees_program hjoin h {} ⟨nofun, nofun⟩).2.errors

end DeferLang
