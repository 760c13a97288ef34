import DeferLang.Proofs.ExitCleanup
import DeferLang.Proofs.LoweringRules
import DeferLang.Proofs.TypedCleanup
import DeferLang.Proofs.TypedProgram
import DeferLang.Proofs.UnspannedCode

/-!
# Lowering follows its rules

Lowering goes on when it reports something.  As long as it reports nothing about a typed
program, it follows the rules: a symbol in scope has a slot for the values of its type, so
that what target code cannot express is never met silently.
-/

namespace DeferLang

variable {e : Expr} {s : Code.Lowering} {symbol : SymbolId} {type : Ty}

namespace Code

namespace Lower

section Errors

variable {α β : Type} {ctx : Context} {printSymbol : String}

theorem run_bind (m : Lower α) (k : α → Lower β) (s : Lowering) :
    (m >>= k).run s = (k (m.run s).1).run (m.run s).2 :=
  rfl

/-- A step takes back no report. -/
def KeepsErrors (m : Lower α) : Prop :=
  ∀ s, (m.run s).2.errors = [] → s.errors = []

namespace KeepsErrors

variable {m : Lower α} {k : α → Lower β}

theorem bind (hm : KeepsErrors m) (hk : ∀ a, KeepsErrors (k a)) : KeepsErrors (m >>= k) :=
  fun s h => hm s (hk _ _ h)

theorem pure (a : α) : KeepsErrors (Pure.pure a) :=
  fun _ h => h

theorem ite {cond : Prop} [Decidable cond] {m m' : Lower α} (hm : KeepsErrors m)
    (hm' : KeepsErrors m') : KeepsErrors (if cond then m else m') := by
  split
  · exact hm
  · exact hm'

/-- Nothing is reported in front of what reports nothing. -/
theorem errors_nil (hk : ∀ a, KeepsErrors (k a))
    (h : ((m >>= k).run s).2.errors = []) : (m.run s).2.errors = [] :=
  hk _ _ h

end KeepsErrors

/-- Whatever walks through a step without spans sees its reports. -/
theorem keepsErrors_of_agrees {m m' : Lower α} (h : Agrees (· ≠ []) m m') : KeepsErrors m :=
  fun s hnil => by_contra fun hs => (h s hs).2 hnil

theorem admits_ne_nil : Admits (fun _ => True) (· ≠ []) :=
  fun _ _ _ _ _ => List.cons_ne_nil _ _

theorem keepsErrors_report (fault : LowerFault) (span : Span) : KeepsErrors (report fault span) :=
  fun _ h => absurd h (List.cons_ne_nil _ _)

theorem keepsErrors_emit (span : Span) (operation : Operation) :
    KeepsErrors (emit span operation) :=
  fun _ h => h

theorem run_declare (name : String) (signature : Signature) (s : Lowering) :
    (declare name signature).run s = ((), s.inModule (s.module.declared name signature)) := by
  unfold declare Module.declared
  dsimp only [StateT.run, modify, modifyGet, MonadStateOf.modifyGet, StateT.modifyGet]
  cases s.module.externs.lookup name with
  | none | some found => rfl

theorem keepsErrors_expr (e : Expr) : KeepsErrors (expr ctx e) :=
  keepsErrors_of_agrees (agrees_expr admits_ne_nil ctx fun _ _ => trivial)

/-- The end of printing a number or a truth value, behind the instructions for it. -/
def printValue (ctx : Context) (symbol : String) (span : Span) (arg : Expr) (value : Operand) :
    Lower Unit := do
  let value ← if (ctx.exprType arg.id).deref = .bool then
      pure (.value (← emitValue arg.span (.widen value)))
    else pure value
  let format ← constant "%d\n"
  emit span (.call symbol .i32 [(.ptr, .address format), (.i32, value)])

theorem print_of_not_text {arg : Expr} (harg : ∀ id span text, arg ≠ .str id span text)
    (symbol : String) (span : Span) :
    print ctx symbol span arg = (do
      declare symbol printSignature
      let value ← expr ctx arg
      printValue ctx symbol span arg value) := by
  cases arg with
  | str id span text => exact (harg id span text rfl).elim
  | _ => rfl

theorem keepsErrors_printValue (symbol : String) (span : Span) (arg : Expr) (value : Operand) :
    KeepsErrors (printValue ctx symbol span arg value) :=
  .ite (fun _ h => h) fun _ h => h

theorem keepsErrors_arguments (callee : String) (args : List Expr) :
    KeepsErrors (arguments ctx callee args) :=
  keepsErrors_of_agrees (agrees_arguments admits_ne_nil ctx callee fun _ _ _ _ => trivial)

theorem keepsErrors_forM {step : α → Lower PUnit} (hstep : ∀ a, KeepsErrors (step a))
    (as : List α) : KeepsErrors (as.forM step) := by
  induction as with
  | nil => exact .pure _
  | cons a as ih => exact (hstep a).bind fun _ => ih

theorem keepsErrors_block (b : BlockOf Stmt) : KeepsErrors (block ctx printSymbol b) :=
  keepsErrors_of_agrees (agrees_block ctx printSymbol admits_ne_nil b fun _ _ => trivial)

theorem keepsErrors_stmts (ss : List Stmt) : KeepsErrors (stmts ctx printSymbol ss) :=
  keepsErrors_of_agrees (agrees_stmts ctx printSymbol admits_ne_nil ss fun _ _ _ _ => trivial)

theorem keepsErrors_function (f : DeferLang.Function) : KeepsErrors (function ctx printSymbol f) :=
  keepsErrors_of_agrees (agrees_function ctx printSymbol admits_ne_nil fun _ _ => trivial)

end Errors

end Lower

section Types

variable {t : ValueType}

theorem valueType?_eq_some : valueType? type = some t ↔
    (type.deref = .int ∧ t = .i32) ∨ (type.deref = .bool ∧ t = .i1) := by
  unfold valueType?
  split
  · rename_i h
    simp [h, eq_comm]
  · rename_i h
    simp [h, eq_comm]
  · rename_i hint hbool
    refine ⟨fun h => by contradiction, ?_⟩
    rintro (⟨h, -⟩ | ⟨h, -⟩)
    · exact (hint h).elim
    · exact (hbool h).elim

theorem valueType?_deref (h : valueType? type = some t) :
    valueType? type.deref = some t := by
  rw [valueType?_eq_some] at h ⊢
  rcases h with ⟨h, ht⟩ | ⟨h, ht⟩
  · rw [h]
    exact .inl ⟨rfl, ht⟩
  · rw [h]
    exact .inr ⟨rfl, ht⟩

/-- An operator over values of types that it admits is an instruction over operands of one type. -/
theorem takes_of_admits {op : BinOp} {left right : Ty} {l r : ValueType}
    (h : op.Admits left.deref right.deref) (hl : valueType? left = some l)
    (hr : valueType? right = some r) : l = r ∧ (operatorOf op).Takes l ∧
      valueType? op.resultType = some ((operatorOf op).result l) := by
  rw [valueType?_eq_some] at hl hr
  rcases hl with ⟨hl, rfl⟩ | ⟨hl, rfl⟩ <;> rcases hr with ⟨hr, rfl⟩ | ⟨hr, rfl⟩ <;>
    rw [hl, hr] at h <;>
    cases op <;> simp_all [BinOp.Admits, BinOp.operandType?, BinOp.isArithmetic, Ty.isComparable,
      Operator.Takes, Operator.result, operatorOf, Operator.isCompare, BinOp.resultType, valueType?,
      Ty.deref]

/-- What can be stored somewhere has the type of the values there. -/
theorem valueType?_eq_of_takes {expected found : Ty} {t' : ValueType}
    (h : expected.deref.Takes found) (hexpected : valueType? expected = some t)
    (hfound : valueType? found = some t') : t' = t := by
  have hderef := valueType?_deref hexpected
  rcases h with h | h | h
  · rw [h] at hderef
    contradiction
  · rw [h] at hfound
    contradiction
  · rw [valueType?, ← h] at hfound
    rw [valueType?, hfound] at hderef
    exact Option.some.inj hderef

end Types

/-- Every symbol in scope has a slot for the values of its type. -/
def SlotsFit (ctx : Context) (scope : List SymbolId) (slots : Slots) : Prop :=
  ∀ symbol ∈ scope, ∃ type slot t, ctx.symbolType? symbol = some type ∧
    valueType? type = some t ∧ slots.lookup symbol = some (slot, t)

section Fits

variable {ctx : Context} {scope : List SymbolId} {s s' : Lowering}

theorem SlotsFit.of_lookup_eq {slots slots' : Slots} (h : SlotsFit ctx scope slots)
    (heq : ∀ symbol ∈ scope, slots'.lookup symbol = slots.lookup symbol) :
    SlotsFit ctx scope slots' := by
  intro symbol hsymbol
  rw [heq symbol hsymbol]
  exact h symbol hsymbol

theorem SlotsFit.withSlot (h : SlotsFit ctx scope s.slots) {var : SymbolId} (hvar : var ∉ scope)
    {t : ValueType} (htype : ctx.symbolType? var = some type)
    (ht : valueType? type = some t) (span : Span) :
    SlotsFit ctx (var :: scope) (s.withSlot var t span).slots := by
  refine List.forall_mem_cons.2 ⟨⟨type, s.nextValue, t, htype, ht, List.lookup_cons_self⟩, ?_⟩
  exact h.of_lookup_eq fun symbol hsymbol => Lowering.lookup_withSlot hvar hsymbol t span

end Fits

end Code

section Tables

variable {ctx : Context} {scope : List SymbolId}

theorem Context.HasType.mem_exprTypes (h : ctx.HasType scope e type) :
    (e.id, type) ∈ ctx.exprTypes := by
  cases h <;> assumption

/-- The tables give the type of an expression. -/
theorem Context.HasType.exprType_eq (hf : ctx.Functional)
    (h : ctx.HasType scope e type) : ctx.exprType e.id = type := by
  rw [exprType, lookup_of_mem_of_nodup h.mem_exprTypes hf.exprTypes]
  rfl

theorem Context.Functional.resolve?_eq (hf : ctx.Functional) {id : NodeId}
    (h : (id, symbol) ∈ ctx.resolutions) : ctx.resolve? id = some symbol :=
  lookup_of_mem_of_nodup h hf.resolutions

theorem Context.Functional.declSymbol?_eq (hf : ctx.Functional) {id : NodeId}
    (h : (id, symbol) ∈ ctx.declSymbols) : ctx.declSymbol? id = some symbol :=
  lookup_of_mem_of_nodup h hf.declSymbols

end Tables

namespace Code

namespace Lower

variable {ctx : Context} {printSymbol : String} {scope scope' : List SymbolId} {s : Lowering}

section Expressions

/-- With slots for all symbols in scope, an expression is a number, a truth value, a text or a
range. -/
theorem valueType?_of_hasType {slots : Slots}
    (h : ctx.HasType scope e type) (hfit : SlotsFit ctx scope slots) :
    (∃ t, valueType? type = some t) ∨ type = .str ∨ type = .sequence .int := by
  induction h with
  | bool _ => exact .inl ⟨.i1, rfl⟩
  | int _ _ => exact .inl ⟨.i32, rfl⟩
  | str _ => exact .inr (.inl rfl)
  | range _ _ _ _ => exact .inr (.inr rfl)
  | var _ hscope hsymbol _ =>
    obtain ⟨type', slot, t, htype', ht, -⟩ := hfit _ hscope
    obtain rfl := Option.some.inj (hsymbol.symm.trans htype')
    exact .inl ⟨t, ht⟩
  | @binary _ _ _ op _ _ _ _ _ _ _ _ _ _ =>
    refine .inl ?_
    unfold BinOp.resultType
    split
    · exact ⟨.i32, rfl⟩
    · exact ⟨.i1, rfl⟩
  | @field _ _ _ _ baseType _ _ hfield _ ih =>
    -- none of these has fields
    exfalso
    rcases hfield with ⟨rfl, -⟩ | ⟨className, hclass, -⟩
    · rcases ih with ⟨t, ht⟩ | h | h <;> contradiction
    · rcases ih with ⟨t, ht⟩ | rfl | rfl
      · cases baseType with
        | reference target =>
          cases target with
          | _ => contradiction
        | _ => contradiction
      · contradiction
      · contradiction

variable (hf : ctx.Functional)

include hf

/-- Expressions are lowered by the rules. -/
theorem computes_expr (h : ctx.HasType scope e type)
    (hfit : SlotsFit ctx scope s.slots) (herrors : ((expr ctx e).run s).2.errors = []) :
    ∃ code x t, valueType? type = some t ∧
      Computes ctx scope s.slots s.nextValue e code x t ∧
      (expr ctx e).run s = (x, s.computed code) := by
  induction h generalizing s with
  | bool _ => exact ⟨[], _, .i1, rfl, .bool, rfl⟩
  | int hvalue _ => exact ⟨[], _, .i32, rfl, .int hvalue, rfl⟩
  | str _ | field _ _ _ _ | range _ _ _ _ => exact absurd herrors (List.cons_ne_nil _ _)
  | @var id name symbol type hresolved hscope hsymbol _ =>
    obtain ⟨type', slot, t, htype', ht, hslot⟩ := hfit symbol hscope
    obtain rfl := Option.some.inj (hsymbol.symm.trans htype')
    have hresolve := hf.resolve?_eq hresolved
    refine ⟨_, .value s.nextValue, t, ht, .var hresolve hscope hslot, ?_⟩
    have hfound : (slotOf? ctx id).run s = (some (slot, t), s) := by
      change ((ctx.resolve? id).bind fun var => s.slots.lookup var, s) = _
      rw [hresolve, Option.bind_some, hslot]
    rw [expr, run_bind, hfound]
    rfl
  | @binary id span opSpan op left right leftType rightType hleft hright hadmits _ ihl ihr =>
    have herrors' : ((expr ctx right).run ((expr ctx left).run s).2).2.errors = [] := herrors
    obtain ⟨leftCode, l, lt, hlt, hcl, hrunl⟩ := ihl hfit (keepsErrors_expr right _ herrors')
    rw [hrunl] at herrors'
    obtain ⟨rightCode, r, rt, hrt, hcr, hrunr⟩ := ihr (s := s.computed leftCode) hfit herrors'
    obtain ⟨rfl, htakes, hresult⟩ := takes_of_admits hadmits hlt hrt
    refine ⟨_, _, _, hresult, .binary hcl hcr htakes, ?_⟩
    rw [← Lowering.computed_append, ← Lowering.computed_append, expr, run_bind, hrunl, run_bind,
      hrunr, hleft.exprType_eq hf, hlt]
    rfl

end Expressions

section Calls

variable {arg : Expr}

theorem run_makeSlot (var : SymbolId) (type : ValueType) (span : Span) (s : Lowering) :
    (makeSlot var type span).run s = (s.nextValue, s.withSlot var type span) :=
  rfl

theorem run_constant (text : String) (s : Lowering) :
    (constant text).run s = ((s.module.intern text).2, s.inModule (s.module.intern text).1) :=
  rfl

/-- Passing anything but a text. -/
theorem argument_of_not_text (harg : ∀ id span text, arg ≠ .str id span text) (callee : String) :
    argument ctx callee arg = (match valueType? (ctx.exprType arg.id) with
      | none => do
          report (.argumentType (ctx.exprType arg.id) callee) arg.span
          return none
      | some type => return some (type, ← expr ctx arg)) := by
  cases arg with
  | str id span text => exact (harg id span text rfl).elim
  | _ => rfl

variable (hf : ctx.Functional)

include hf

/-- Printing is lowered by the rules. -/
theorem lowersCall_print {c : Call} (hcallee : c.callee.name = printName)
    (hargs : c.args = [arg]) (harg : ctx.HasType scope arg type) (hfit : SlotsFit ctx scope s.slots)
    (herrors : ((print ctx printSymbol c.span arg).run s).2.errors = []) :
    LowersCall ctx printSymbol scope s c ((print ctx printSymbol c.span arg).run s).2 := by
  by_cases htext : ∃ id span text, arg = .str id span text
  · obtain ⟨id, span, text, rfl⟩ := htext
    rw [print, run_bind, run_declare, run_bind, run_constant]
    exact .printText hcallee hargs
  · simp only [not_exists] at htext
    rw [print_of_not_text htext, run_bind, run_declare, run_bind] at herrors ⊢
    obtain ⟨code, x, t, ht, hcode, hrun⟩ := computes_expr hf harg
      (s := s.inModule (s.module.declared printSymbol printSignature)) hfit
      (keepsErrors_printValue _ _ _ _ _ herrors)
    rw [hrun, printValue, harg.exprType_eq hf]
    rcases valueType?_eq_some.1 ht with ⟨hint, rfl⟩ | ⟨hbool, rfl⟩
    · rw [hint]
      exact .printNumber hcallee hargs (.number hcode)
    · rw [hbool]
      have hprints : Prints ctx scope s.slots s.nextValue arg _ _ := .truth hcode
      have hlowers : LowersCall ctx printSymbol scope s c _ := .printNumber hcallee hargs hprints
      rw [← Lowering.computed_append] at hlowers
      exact hlowers

/-- An argument of a routine from outside is a text, or a value that instructions compute. -/
theorem run_argument {callee : String} (harg : ctx.HasType scope arg type)
    (hfit : SlotsFit ctx scope s.slots)
    (herrors : ((argument ctx callee arg).run s).2.errors = []) :
    (∃ id span text, arg = .str id span text ∧ (argument ctx callee arg).run s =
        (some (.ptr, .address (s.module.intern text).2), s.inModule (s.module.intern text).1)) ∨
      ∃ code x t, Computes ctx scope s.slots s.nextValue arg code x t ∧
        (argument ctx callee arg).run s = (some (t, x), s.computed code) := by
  by_cases htext : ∃ id span text, arg = .str id span text
  · obtain ⟨id, span, text, rfl⟩ := htext
    exact .inl ⟨id, span, text, rfl, rfl⟩
  · simp only [not_exists] at htext
    rw [argument_of_not_text htext, harg.exprType_eq hf] at herrors ⊢
    cases ht : valueType? type with
    | none =>
      rw [ht] at herrors
      exact absurd herrors (List.cons_ne_nil _ _)
    | some t =>
      rw [ht] at herrors
      obtain ⟨code, x, t', ht', hcode, hrun⟩ := computes_expr hf harg hfit herrors
      obtain rfl := Option.some.inj (ht.symm.trans ht')
      refine .inr ⟨code, x, t, hcode, ?_⟩
      dsimp only
      rw [run_bind, hrun]
      rfl

/-- The arguments of a routine from outside are lowered by the rules. -/
theorem lowersArgs_arguments {callee : String} {es : List Expr}
    (hes : ∀ e ∈ es, ∃ type, ctx.HasType scope e type) (hfit : SlotsFit ctx scope s.slots)
    (herrors : ((arguments ctx callee es).run s).2.errors = []) :
    ∃ s' args, (arguments ctx callee es).run s = (some args, s') ∧
      LowersArgs ctx scope s es s' args := by
  induction es generalizing s with
  | nil => exact ⟨s, [], rfl, .nil⟩
  | cons e es ih =>
    rw [List.forall_mem_cons] at hes
    obtain ⟨⟨type, htype⟩, hes⟩ := hes
    have hfirst : ((argument ctx callee e).run s).2.errors = [] := by
      refine KeepsErrors.errors_nil (fun found => ?_) herrors
      split
      · exact .pure _
      · refine (keepsErrors_arguments callee es).bind fun rest => ?_
        split
        · exact .pure _
        · exact .pure _
    -- behind the first argument, the others are lowered
    have hrest {s₁ : Lowering} {first : ValueType × Operand}
        (hrun : (argument ctx callee e).run s = (some first, s₁)) (hslots : s₁.slots = s.slots) :
        ∃ s' args, (arguments ctx callee (e :: es)).run s = (some (first :: args), s') ∧
          LowersArgs ctx scope s₁ es s' args := by
      rw [arguments, run_bind, hrun] at herrors
      have herrors₁ : ((arguments ctx callee es).run s₁).2.errors = [] := by
        refine KeepsErrors.errors_nil (fun rest => ?_) herrors
        split
        · exact .pure _
        · exact .pure _
      obtain ⟨s', args, hargs, hlowers⟩ := ih (s := s₁) hes (hslots ▸ hfit) herrors₁
      refine ⟨s', args, ?_, hlowers⟩
      rw [arguments, run_bind, hrun]
      dsimp only
      rw [run_bind, hargs]
      rfl
    rcases run_argument hf htype hfit hfirst with
      ⟨id, span, text, rfl, hrun⟩ | ⟨code, x, t, hcode, hrun⟩
    · obtain ⟨s', args, hargs, hlowers⟩ := hrest hrun rfl
      exact ⟨s', _, hargs, .text hlowers⟩
    · obtain ⟨s', args, hargs, hlowers⟩ := hrest hrun rfl
      exact ⟨s', _, hargs, .value hcode hlowers⟩

/-- Calls are lowered by the rules. -/
theorem lowersCall_call {c : Call} (hcall : ctx.TypesCall scope c)
    (hfit : SlotsFit ctx scope s.slots) (herrors : ((call ctx printSymbol c).run s).2.errors = []) :
    LowersCall ctx printSymbol scope s c ((call ctx printSymbol c).run s).2 := by
  rw [call] at herrors ⊢
  cases hcall with
  | print hcallee hargs harg hprintable =>
    rw [if_pos hcallee, hargs] at herrors ⊢
    exact lowersCall_print hf hcallee hargs harg hfit herrors
  | function hcallee hfunction hargs =>
    rw [if_neg hcallee, if_pos hfunction]
    by_cases hmain : c.callee.name = "main"
    · have hresult : resultType c.callee.name = .i32 := if_pos hmain
      rw [hresult]
      exact .main hcallee hfunction hargs hresult
    · have hresult : resultType c.callee.name = .void := if_neg hmain
      rw [hresult]
      exact .function hcallee hfunction hargs hresult
  | routine hcallee hfunction hargs =>
    have hnone : ¬(ctx.function? c.callee.name).isSome = true := by
      rw [hfunction]
      exact Bool.noConfusion
    rw [if_neg hcallee, if_neg hnone, externalCall] at herrors ⊢
    have harguments : ((arguments ctx c.callee.name c.args).run s).2.errors = [] := by
      refine KeepsErrors.errors_nil (fun found => ?_) herrors
      split
      · exact .pure _
      · refine (keepsErrors_of_agrees (agrees_declare _ _)).bind fun _ => ?_
        refine KeepsErrors.bind (m := get) (fun _ h => h) fun s => ?_
        exact .ite (keepsErrors_emit _ _) (keepsErrors_report _ _)
    obtain ⟨s', args, hrun, hlowers⟩ := lowersArgs_arguments hf hargs hfit harguments
    rw [run_bind, hrun] at herrors ⊢
    dsimp only at herrors ⊢
    rw [run_bind, run_declare, run_bind] at herrors ⊢
    split at herrors
    · rename_i hlookup
      rw [if_pos hlookup]
      exact .routine hcallee hfunction hlowers hlookup
    · exact absurd herrors (List.cons_ne_nil _ _)

end Calls

section Statements

variable {span : Span} {cond : Expr} {x : Operand} {s₁ : Lowering}

/-- Declarations are lowered by the rules.  Their variables are of types that target code has. -/
theorem lowersStmt_varDecl (hf : ctx.Functional) {d : VarDecl}
    (hdecl : (d.id, symbol) ∈ ctx.declSymbols) (htype : ctx.symbolType? symbol = some type)
    (hnew : symbol ∉ scope) (hdeclares : ctx.Declares scope d type)
    (hfit : SlotsFit ctx scope s.slots) (herrors : ((varDecl ctx d).run s).2.errors = []) :
    LowersStmt ctx printSymbol scope s (.varDecl d) ((varDecl ctx d).run s).2 (symbol :: scope) ∧
      SlotsFit ctx (symbol :: scope) ((varDecl ctx d).run s).2.slots := by
  have hsymbol := hf.declSymbol?_eq hdecl
  have hget : ((ctx.symbols.get? symbol).map Symbol.type).getD .unknown = type := by
    rw [show (ctx.symbols.get? symbol).map Symbol.type = some type from htype]
    rfl
  rw [varDecl, hsymbol] at herrors ⊢
  dsimp only at herrors ⊢
  rw [hget, run_bind] at herrors ⊢
  cases ht : valueType? type with
  | none =>
    -- the type would be reported, unless it were unknown
    exfalso
    have hunknown : type = .unknown := by
      by_contra hne
      rw [localType?, ht] at herrors
      dsimp only at herrors
      rw [if_pos hne] at herrors
      exact List.cons_ne_nil _ _ herrors
    cases hdeclares with
    | inferred _ hinit =>
      rcases valueType?_of_hasType hinit hfit with ⟨t, hvalue⟩ | rfl | rfl
      · rw [valueType?_deref hvalue] at ht
        contradiction
      · contradiction
      · contradiction
    | written hne _ => exact hne hunknown
  | some t =>
    have hlocal : (localType? type d.name.span).run s = (some t, s) := by
      rw [localType?, ht]
      rfl
    rw [hlocal] at herrors ⊢
    dsimp only at herrors ⊢
    rw [run_bind] at herrors ⊢
    have hfit' := hfit.withSlot hnew htype ht d.span
    have hfit₁ : SlotsFit ctx scope (s.withSlot symbol t d.span).slots :=
      fun symbol hsymbol => hfit' symbol (List.mem_cons_of_mem _ hsymbol)
    cases hinit : d.init with
    | none => exact ⟨.declareZero hinit hsymbol hnew htype ht, hfit'⟩
    | some init =>
      rw [hinit] at herrors
      -- the initializer is of the type of the variable
      obtain ⟨found, hfound, htypes⟩ : ∃ found, ctx.HasType scope init found ∧
          ∀ t', valueType? found = some t' → t' = t := by
        cases hdeclares with
        | inferred hinit' hfound =>
          obtain rfl := Option.some.inj (hinit.symm.trans hinit')
          refine ⟨_, hfound, fun t' ht' => ?_⟩
          exact Option.some.inj ((valueType?_deref ht').symm.trans ht)
        | written _ hwritten =>
          obtain ⟨found, hfound, htakes⟩ := hwritten init hinit
          exact ⟨found, hfound, fun t' ht' => valueType?_eq_of_takes htakes ht ht'⟩
      obtain ⟨code, x, t', ht', hcode, hrun⟩ := computes_expr hf hfound
        (s := s.withSlot symbol t d.span) hfit₁ herrors
      obtain rfl := htypes t' ht'
      dsimp only
      rw [run_bind, run_makeSlot, hrun]
      exact ⟨.declareInit hinit hsymbol hnew htype ht hcode, hfit'⟩

theorem lowersStmt_assign (hf : ctx.Functional) {target value : Expr} {found : Ty}
    (htarget : ctx.HasType scope target type) (hvalue : ctx.HasType scope value found)
    (htakes : type.deref.Takes found) (hfit : SlotsFit ctx scope s.slots)
    (herrors : ((assign ctx span target value).run s).2.errors = []) :
    LowersStmt ctx printSymbol scope s (.assign span target value)
        ((assign ctx span target value).run s).2 scope ∧
      SlotsFit ctx scope ((assign ctx span target value).run s).2.slots := by
  cases htarget with
  | @var id name symbol type hresolved hscope hsymbol _ =>
    obtain ⟨type', slot, t, htype', ht, hslot⟩ := hfit symbol hscope
    obtain rfl := Option.some.inj (hsymbol.symm.trans htype')
    have hresolve := hf.resolve?_eq hresolved
    have hrun : (assign ctx span (.var id name) value).run s =
        ((do let v ← expr ctx value
             emit span (.store t v slot)) : Lower Unit).run s := by
      rw [assign, run_bind]
      have hfound : (slotOf? ctx id).run s = (some (slot, t), s) := by
        change ((ctx.resolve? id).bind fun var => s.slots.lookup var, s) = _
        rw [hresolve, Option.bind_some, hslot]
      rw [hfound]
    rw [hrun] at herrors ⊢
    obtain ⟨code, x, t', ht', hcode, hexpr⟩ := computes_expr hf hvalue hfit herrors
    obtain rfl := valueType?_eq_of_takes htakes ht ht'
    rw [run_bind, hexpr]
    exact ⟨.assign hresolve hscope hslot hcode, hfit⟩
  | _ => exact absurd herrors (List.cons_ne_nil _ _)

/-- Conditions are lowered by the rules, to truth values. -/
theorem computes_condition (hf : ctx.Functional) (h : ctx.TypesCondition scope cond)
    (hfit : SlotsFit ctx scope s.slots) (herrors : ((expr ctx cond).run s).2.errors = []) :
    ∃ code x, Computes ctx scope s.slots s.nextValue cond code x .i1 ∧
      (expr ctx cond).run s = (x, s.computed code) := by
  obtain ⟨type, htype, hbool⟩ := h
  obtain ⟨code, x, t, ht, hcode, hrun⟩ := computes_expr hf htype hfit herrors
  rcases valueType?_eq_some.1 ht with ⟨hint, -⟩ | ⟨-, rfl⟩
  · rw [hint] at hbool
    rcases hbool with h | h <;> contradiction
  · exact ⟨code, x, hcode, hrun⟩

theorem run_ifThen {thenBody : Block} (hcond : (expr ctx cond).run s = (x, s₁)) :
    ((stmt ctx printSymbol (.ifElse span cond thenBody none)).run s).2 =
      (((block ctx printSymbol thenBody).run ((s₁.reserved 2).closed
        (.branch x s₁.nextBlock (s₁.nextBlock + 1)) s₁.nextBlock)).2).closed
        (.jump (s₁.nextBlock + 1)) (s₁.nextBlock + 1) := by
  rw [stmt, run_bind, hcond]
  rfl

theorem run_ifElse {thenBody elseBody : Block} (hcond : (expr ctx cond).run s = (x, s₁)) :
    ((stmt ctx printSymbol (.ifElse span cond thenBody (some elseBody))).run s).2 =
      (((block ctx printSymbol elseBody).run
        ((((block ctx printSymbol thenBody).run ((s₁.reserved 3).closed
          (.branch x s₁.nextBlock (s₁.nextBlock + 1)) s₁.nextBlock)).2).closed
          (.jump (s₁.nextBlock + 2)) (s₁.nextBlock + 1))).2).closed
        (.jump (s₁.nextBlock + 2)) (s₁.nextBlock + 2) := by
  rw [stmt, run_bind, hcond]
  rfl

theorem run_whileLoop {body : Block}
    (hcond : (expr ctx cond).run ((s.reserved 3).closed (.jump s.nextBlock) s.nextBlock) =
      (x, s₁)) :
    ((stmt ctx printSymbol (.whileLoop span cond body)).run s).2 =
      (((block ctx printSymbol body).run (s₁.closed
        (.branch x (s.nextBlock + 1) (s.nextBlock + 2)) (s.nextBlock + 1))).2).closed
        (.jump s.nextBlock) (s.nextBlock + 2) := by
  have hrun : ((stmt ctx printSymbol (.whileLoop span cond body)).run s).2 =
      (((block ctx printSymbol body).run (((expr ctx cond).run
        ((s.reserved 3).closed (.jump s.nextBlock) s.nextBlock)).2.closed
        (.branch ((expr ctx cond).run
          ((s.reserved 3).closed (.jump s.nextBlock) s.nextBlock)).1
          (s.nextBlock + 1) (s.nextBlock + 2)) (s.nextBlock + 1))).2).closed
        (.jump s.nextBlock) (s.nextBlock + 2) := by
    rw [stmt]
    rfl
  rw [hrun, hcond]

theorem eq_of_literalBound? {iter : Expr} {count : Nat} (h : literalBound? iter = some count) :
    ∃ id span litId litSpan, iter = .range id span (.int litId litSpan count) := by
  unfold literalBound? at h
  split at h
  · exact ⟨_, _, _, _, by rw [Option.some.inj h]⟩
  · contradiction

/-- The copies of a loop body are lowered by the rules if each is. -/
theorem lowersCopies_forM {body : Block} {inner : List SymbolId} {slot : ValueId}
    (hbody : ∀ {s : Lowering}, ((block ctx printSymbol body).run s).2.errors = [] →
      SlotsFit ctx scope s.slots →
      LowersBlock ctx printSymbol scope s body ((block ctx printSymbol body).run s).2 inner)
    {is : List Nat} (herrors : ((is.forM fun i => do
      emit span (.store .i32 (.const32 (Int32.ofNat i)) slot)
      block ctx printSymbol body).run s).2.errors = []) (hfit : SlotsFit ctx scope s.slots) :
    LowersCopies ctx printSymbol scope span slot is s body
      ((is.forM fun i => do
        emit span (.store .i32 (.const32 (Int32.ofNat i)) slot)
        block ctx printSymbol body).run s).2 := by
  induction is generalizing s with
  | nil => exact .nil
  | cons i is ih =>
    have hrest (s : Lowering) : ((is.forM fun i => do
        emit span (.store .i32 (.const32 (Int32.ofNat i)) slot)
        block ctx printSymbol body).run s).2.errors = [] → s.errors = [] :=
      keepsErrors_forM (fun i => (keepsErrors_emit _ _).bind fun _ => keepsErrors_block body) is s
    have hfirst : ((block ctx printSymbol body).run (s.emitted span
        (.store .i32 (.const32 (Int32.ofNat i)) slot))).2.errors = [] := hrest _ herrors
    have hlowers := hbody hfirst hfit
    have hslots := LowersBlock.lookup_slots body hlowers
    exact .cons hlowers (ih herrors (hfit.of_lookup_eq hslots))

mutual

/-- Statements are lowered by the rules, and every symbol in scope behind them has a slot. -/
theorem lowersStmt_stmt (hf : ctx.Functional) (st : Stmt) {scope scope' : List SymbolId}
    {s : Lowering} (h : ctx.TypesStmt scope st scope')
    (herrors : ((stmt ctx printSymbol st).run s).2.errors = [])
    (hfit : SlotsFit ctx scope s.slots) :
    LowersStmt ctx printSymbol scope s st ((stmt ctx printSymbol st).run s).2 scope' ∧
      SlotsFit ctx scope' ((stmt ctx printSymbol st).run s).2.slots := by
  match st, h with
  | .varDecl d, .varDecl hdecl htype hnew hdeclares =>
    exact lowersStmt_varDecl hf hdecl htype hnew hdeclares hfit herrors
  | .assign span target value, .assign htarget hvalue htakes =>
    exact lowersStmt_assign hf htarget hvalue htakes hfit herrors
  | .call _ c, .call hcall =>
    have hlowers := lowersCall_call hf hcall hfit herrors
    exact ⟨.call hlowers, hlowers.slots_eq ▸ hfit⟩
  | .block body, .block hbody =>
    obtain ⟨hlowers, hfit'⟩ := lowersBlock_block hf body hbody herrors hfit
    exact ⟨.block hlowers, hfit'⟩
  | .ifElse span cond thenBody none, .ifThen hcond hthen =>
    have hfirst := herrors
    rw [run_ifThen rfl] at hfirst
    have hfirst' := keepsErrors_block thenBody _ hfirst
    obtain ⟨code, x, hcode, hexpr⟩ := computes_condition hf hcond hfit hfirst'
    rw [run_ifThen hexpr] at herrors ⊢
    obtain ⟨hlowers, -⟩ := lowersBlock_block hf thenBody hthen herrors hfit
    have hslots := LowersBlock.lookup_slots thenBody hlowers
    exact ⟨.ifThen hcode hlowers, hfit.of_lookup_eq hslots⟩
  | .ifElse span cond thenBody (some elseBody), .ifElse hcond hthen helse =>
    have hfirst := herrors
    rw [run_ifElse rfl] at hfirst
    have hfirst' := keepsErrors_block elseBody _ hfirst
    have hfirst'' := keepsErrors_block thenBody _ hfirst'
    obtain ⟨code, x, hcode, hexpr⟩ := computes_condition hf hcond hfit hfirst''
    rw [run_ifElse hexpr] at herrors ⊢
    have hthenErrors := keepsErrors_block elseBody _ herrors
    obtain ⟨hlowers, -⟩ := lowersBlock_block hf thenBody hthen hthenErrors hfit
    have hslots := LowersBlock.lookup_slots thenBody hlowers
    obtain ⟨hlowers', -⟩ := lowersBlock_block hf elseBody helse herrors (hfit.of_lookup_eq hslots)
    have hslots' := LowersBlock.lookup_slots elseBody hlowers'
    exact ⟨.ifElse hcode hlowers hlowers', (hfit.of_lookup_eq hslots).of_lookup_eq hslots'⟩
  | .whileLoop span cond body, .whileLoop hcond hbody =>
    have hfirst := herrors
    rw [run_whileLoop rfl] at hfirst
    have hfirst' := keepsErrors_block body _ hfirst
    obtain ⟨code, x, hcode, hexpr⟩ := computes_condition hf hcond
      (s := (s.reserved 3).closed (.jump s.nextBlock) s.nextBlock) hfit hfirst'
    rw [run_whileLoop hexpr] at herrors ⊢
    obtain ⟨hlowers, -⟩ := lowersBlock_block hf body hbody herrors hfit
    have hslots := LowersBlock.lookup_slots body hlowers
    exact ⟨.whileLoop hcode hlowers, hfit.of_lookup_eq hslots⟩
  | .forIn id span var iter body, .forIn hiter hint hdecl htype hnew hbody =>
    rw [stmt] at herrors ⊢
    split at herrors
    · exact absurd herrors (List.cons_ne_nil _ _)
    · rename_i count hcount
      obtain ⟨boundId, boundSpan, litId, litSpan, rfl⟩ := eq_of_literalBound? hcount
      split at herrors
      · exact absurd herrors (List.cons_ne_nil _ _)
      · rename_i hle
        rw [hf.declSymbol?_eq hdecl] at herrors
        have hlowers := lowersCopies_forM
          (fun h hfit => (lowersBlock_block hf body hbody h hfit).1)
          herrors (hfit.withSlot hnew htype rfl var.span)
        rw [if_neg hle, hf.declSymbol?_eq hdecl]
        have hstmt : LowersStmt ctx printSymbol scope s (.forIn id span var
            (.range boundId boundSpan (.int litId litSpan count)) body) _ scope :=
          .forIn (Nat.not_lt.1 hle) (hf.declSymbol?_eq hdecl) hnew htype hlowers
        exact ⟨hstmt, hfit.of_lookup_eq (LowersStmt.lookup_slots _ hstmt)⟩
  | .ret _ none, .ret => exact ⟨.ret, hfit⟩
  | .defer _ _, .defer _ => exact ⟨.defer, hfit⟩
  | .cleanup item, .cleanup hitem =>
    rw [stmt] at herrors ⊢
    split at herrors
    · rename_i deferred haction
      have hlowers := lowersCall_call hf (hitem deferred haction) hfit herrors
      exact ⟨.deferred haction hlowers, hlowers.slots_eq ▸ hfit⟩
    · rename_i haction
      exact ⟨.cleanup fun _ h => by rw [haction] at h; contradiction, hfit⟩
    · rename_i haction
      exact ⟨.cleanup fun _ h => by rw [haction] at h; contradiction, hfit⟩

theorem lowersBlock_block (hf : ctx.Functional) (b : BlockOf Stmt) {scope scope' : List SymbolId}
    {s : Lowering} (h : ctx.TypesBlock scope b scope')
    (herrors : ((block ctx printSymbol b).run s).2.errors = [])
    (hfit : SlotsFit ctx scope s.slots) :
    LowersBlock ctx printSymbol scope s b ((block ctx printSymbol b).run s).2 scope' ∧
      SlotsFit ctx scope' ((block ctx printSymbol b).run s).2.slots := by
  match b, h with
  | ⟨id, span, body⟩, .mk hbody =>
    obtain ⟨hlowers, hfit'⟩ := lowersStmts_stmts hf body hbody herrors hfit
    exact ⟨.mk hlowers, hfit'⟩

theorem lowersStmts_stmts (hf : ctx.Functional) (ss : List Stmt) {scope scope' : List SymbolId}
    {s : Lowering} (h : ctx.TypesStmts scope ss scope')
    (herrors : ((stmts ctx printSymbol ss).run s).2.errors = [])
    (hfit : SlotsFit ctx scope s.slots) :
    LowersStmts ctx printSymbol scope s ss ((stmts ctx printSymbol ss).run s).2 scope' ∧
      SlotsFit ctx scope' ((stmts ctx printSymbol ss).run s).2.slots := by
  match ss, h with
  | [], .nil => exact ⟨.nil, hfit⟩
  | st :: ss, .cons hst hss =>
    obtain ⟨hfirst, hfit₁⟩ := lowersStmt_stmt hf st hst (keepsErrors_stmts ss _ herrors) hfit
    obtain ⟨hrest, hfit₂⟩ := lowersStmts_stmts hf ss hss herrors hfit₁
    exact ⟨.cons hfirst hrest, hfit₂⟩

end

end Statements

section Functions

theorem run_finish (s : Lowering) : (finish.run s).2 = s.finished := by
  change (((if (s.current = entryBlock ∨ s.blocks.any (s.current ∈ ·.term.targets)) ∨
      s.instrs ≠ [] then do close (returnTerm s.result) (← freshBlock)
    else pure ()) : Lower Unit).run s).2 = _
  rw [Lowering.finished]
  split
  · rfl
  · rfl

/-- Lowering a function is lowering its body, and closing what is open. -/
theorem run_function (f : DeferLang.Function) {s₁ : Lowering} (hs : s.errors = [])
    (hbody : ((block ctx printSymbol f.body).run (.start s.module f.name.name)).2 = s₁) :
    ((function ctx printSymbol f).run s).2 = s₁.finished.inModule
      (s₁.module.withFunction f.name.name (s₁.finished.code f)) := by
  have hrun : ((function ctx printSymbol f).run s).2 =
      let s₂ := (finish.run ((block ctx printSymbol f.body).run
        { Lowering.start s.module f.name.name with errors := s.errors }).2).2
      s₂.inModule (s₂.module.withFunction f.name.name (s₂.code f)) :=
    rfl
  have hstart : { Lowering.start s.module f.name.name with errors := s.errors } =
      Lowering.start s.module f.name.name := by
    rw [hs]
    rfl
  rw [hrun, hstart, hbody, run_finish]
  dsimp only
  rw [Lowering.finished_module]

/-- One step of lowering a program. -/
def functionUnlessPrint (ctx : Context) (printSymbol : String) (f : DeferLang.Function) :
    Lower Unit :=
  if f.name.name = printSymbol then report (.printCollision f.name.name) f.name.span
  else function ctx printSymbol f

theorem keepsErrors_functionUnlessPrint (f : DeferLang.Function) :
    KeepsErrors (functionUnlessPrint ctx printSymbol f) :=
  .ite (keepsErrors_report _ _) (keepsErrors_function f)

/-- The functions of a typed program are lowered by the rules. -/
theorem lowersFunctions_forM (hf : ctx.Functional) {fs : List DeferLang.Function}
    (htyped : ∀ f ∈ fs, ∃ inner, ctx.TypesBlock [] f.body inner)
    (herrors : ((fs.forM (functionUnlessPrint ctx printSymbol)).run s).2.errors = []) :
    LowersFunctions ctx printSymbol s.module fs
      ((fs.forM (functionUnlessPrint ctx printSymbol)).run s).2.module := by
  induction fs generalizing s with
  | nil => exact .nil
  | cons f fs ih =>
    rw [List.forall_mem_cons] at htyped
    obtain ⟨⟨inner, hbody⟩, htyped⟩ := htyped
    change ((fs.forM (functionUnlessPrint ctx printSymbol)).run
      ((functionUnlessPrint ctx printSymbol f).run s).2).2.errors = [] at herrors
    change LowersFunctions ctx printSymbol s.module (f :: fs)
      ((fs.forM (functionUnlessPrint ctx printSymbol)).run
        ((functionUnlessPrint ctx printSymbol f).run s).2).2.module
    have hfirst := keepsErrors_forM keepsErrors_functionUnlessPrint fs _ herrors
    rw [functionUnlessPrint] at herrors hfirst ⊢
    split at hfirst
    · exact absurd hfirst (List.cons_ne_nil _ _)
    · rename_i hname
      rw [if_neg hname] at herrors ⊢
      have hrun : ((function ctx printSymbol f).run s).2 = _ :=
        run_function f (keepsErrors_function f _ hfirst) rfl
      rw [hrun] at herrors hfirst ⊢
      have hbodyErrors := (Lowering.finished_errors _).symm.trans hfirst
      obtain ⟨hlowers, -⟩ := lowersBlock_block hf f.body hbody hbodyErrors
        fun _ hsymbol => by contradiction
      exact .cons hname hlowers (ih htyped herrors)

end Functions

end Lower

/-- What lowering makes of a typed program, unless it reports something. -/
theorem lowersFunctions_lowerProgram {ctx : Context} (hf : ctx.Functional) {p : Program}
    (htyped : ∀ f ∈ p.functions, ∃ inner, ctx.TypesBlock [] f.body inner) (options : LowerOptions)
    (name : String) (herrors : (lowerProgram ctx options name p).2 = []) :
    LowersFunctions ctx options.printSymbol
      { name, targetTriple := options.targetTriple } p.functions
      (lowerProgram ctx options name p).1 :=
  Lower.lowersFunctions_forM hf htyped (List.reverse_eq_nil_iff.1 herrors)

end Code

namespace Source

/-- The functions of a scheduled source have the names of those in the source. -/
theorem functionNames_planned (s : Source) :
    s.planned.1.program.functions.map (·.name.name) = s.program.functions.map (·.name.name) := by
  change ((s.program.functions.map (Cleanup.planFunction s.context)).map (·.1)).map _ = _
  rw [List.map_map, List.map_map]
  rfl

variable (s : Source) (hclean : ∀ e ∈ s.program.check.2, e.fault.severity ≠ .error)
include hclean

theorem nodup_functionNames_planned : (s.planned.1.program.functions.map (·.name.name)).Nodup := by
  rw [s.functionNames_planned]
  exact (typesProgram_check hclean).nodup

/-- The functions of a scheduled source are typed with their cleanup. -/
theorem typesBlock_planned :
    ∀ f ∈ s.planned.1.program.functions, ∃ inner, s.context.TypesBlock [] f.body inner := by
  intro f hf
  have hbody : f.body ∈ s.planned.1.program.bodies :=
    List.mem_append_right _ (List.mem_map_of_mem hf)
  rw [planned, bodies_planCleanup, List.mem_map] at hbody
  obtain ⟨body, hmem, heq⟩ := hbody
  obtain ⟨inner, htyped⟩ := (typesProgram_check hclean).bodies body hmem
  exact ⟨inner, heq ▸ typesBlock_planBody s.context htyped⟩

/-- What lowering makes of a scheduled source, unless it reports something. -/
theorem lowersFunctions_planned (options : Code.LowerOptions) (name : String)
    (herrors : (Code.lowerProgram s.context options name s.planned.1.program).2 = []) :
    Code.LowersFunctions s.context options.printSymbol
      { name, targetTriple := options.targetTriple } s.planned.1.program.functions
      (Code.lowerProgram s.context options name s.planned.1.program).1 :=
  Code.lowersFunctions_lowerProgram (functional_check s.nodup_ids)
    (s.typesBlock_planned hclean) options name herrors

end Source

end DeferLang
