import DeferLang.Code.Lower
import DeferLang.Proofs.UnspannedCleanup

/-!
# Target code does not depend on spans

Spans go into lowering only to come out again, as the places of instructions,
functions and faults.  Lowering a program without its spans gives the same module
up to spans and the same faults (`Code.lowerProgram_unspanned`), and neither
verification (`Code.Module.verify_unspanned`) nor the text of a module
(`Code.Module.text_unspanned`) looks at a span.  What cannot be expressed stands at
parts of the program (`Code.errors_lowerProgram`).
-/

namespace DeferLang

open List

namespace Code

section Unspanned

def Instr.unspanned (i : Instr) : Instr :=
  { i with span := .blank }

def BasicBlock.unspanned (b : BasicBlock) : BasicBlock :=
  { b with instrs := b.instrs.map Instr.unspanned }

/-- A function without the places of the function and of its instructions. -/
def Function.unspanned (f : Function) : Function :=
  { f with span := .blank, blocks := f.blocks.map BasicBlock.unspanned }

def Module.unspanned (m : Module) : Module :=
  { m with functions := m.functions.map fun p => (p.1, p.2.unspanned) }

def LowerError.unspanned (e : LowerError) : LowerError :=
  ⟨e.fault, .blank⟩

/-- A state of lowering without the places of what was made so far. -/
def Lowering.unspanned (s : Lowering) : Lowering :=
  { s with
    module := s.module.unspanned
    errors := s.errors.map LowerError.unspanned
    instrs := s.instrs.map Instr.unspanned
    slotInstrs := s.slotInstrs.map Instr.unspanned
    blocks := s.blocks.map BasicBlock.unspanned }

end Unspanned

theorem Module.intern_unspanned (m : Module) (text : String) :
    m.unspanned.intern text = ((m.intern text).1.unspanned, (m.intern text).2) := by
  have hconstants : m.unspanned.constants = m.constants := rfl
  simp only [intern, hconstants]
  cases m.constants.find? (·.bytes = constantBytes text) <;> rfl

/-- Changed entries of a sorted table. -/
theorem insertNamed_mapSnd {α β : Type} (f : α → β) (name : String) (entry : α)
    (table : List (String × α)) :
    insertNamed name (f entry) (table.map fun p => (p.1, f p.2)) =
      (insertNamed name entry table).map fun p => (p.1, f p.2) := by
  induction table with
  | nil => rfl
  | cons p rest ih =>
    simp only [insertNamed, map_cons, ih]
    split
    · rfl
    split <;> rfl

namespace Lower

variable {P : Span → Prop} {J : List LowerError → Prop}

/-- A property of reports that stays true when one is added at a place with a property. -/
def Admits (P : Span → Prop) (J : List LowerError → Prop) : Prop :=
  ∀ fault span errors, P span → J errors → J (⟨fault, span⟩ :: errors)

/-- Lowering without spans gives the same result, and the state without spans.  What is reported
keeps a property. -/
abbrev Agrees (J : List LowerError → Prop) {α : Type} (m m' : Lower α) : Prop :=
  Unspans (fun s : Lowering => J s.errors) Lowering.unspanned (fun a => a) m m'

section Steps

theorem agrees_report (hJ : Admits P J) (fault : LowerFault) {span : Span} (h : P span) :
    Agrees J (report fault span) (report fault .blank) :=
  .modify fun _ hs => ⟨rfl, hJ fault span _ h hs⟩

theorem agrees_freshBlock : Agrees J freshBlock freshBlock :=
  fun _ hs => ⟨rfl, hs⟩

theorem agrees_emit (span : Span) (operation : Operation) :
    Agrees J (emit span operation) (emit .blank operation) :=
  fun _ hs => ⟨rfl, hs⟩

theorem agrees_emitValue (span : Span) (operation : Operation) :
    Agrees J (emitValue span operation) (emitValue .blank operation) :=
  fun _ hs => ⟨rfl, hs⟩

theorem agrees_makeSlot (var : SymbolId) (type : ValueType) (span : Span) :
    Agrees J (makeSlot var type span) (makeSlot var type .blank) :=
  fun _ hs => ⟨rfl, hs⟩

theorem agrees_slotOf (ctx : Context) (expr : NodeId) :
    Agrees J (slotOf? ctx expr) (slotOf? ctx.unspanned expr) :=
  fun _ hs => ⟨rfl, hs⟩

theorem agrees_close (term : Terminator) (next : BlockId) :
    Agrees J (close term next) (close term next) :=
  .modify fun s hs => ⟨by simp [Lowering.unspanned, BasicBlock.unspanned], hs⟩

theorem agrees_constant (text : String) : Agrees J (constant text) (constant text) := by
  refine fun s hs => ⟨?_, hs⟩
  change ((s.module.unspanned.intern text).2,
    { s.unspanned with module := (s.module.unspanned.intern text).1 }) = _
  rw [s.module.intern_unspanned text]
  rfl

theorem agrees_declare (name : String) (signature : Signature) :
    Agrees J (declare name signature) (declare name signature) := by
  refine .modify fun s hs => ?_
  have hexterns : s.unspanned.module.externs = s.module.externs := rfl
  rw [hexterns]
  cases s.module.externs.lookup name with
  | none | some found => exact ⟨rfl, hs⟩

end Steps

section Expressions

variable (hJ : Admits P J) (ctx : Context)

include hJ

theorem agrees_expr {e : Expr} (h : e.outline.Every P) :
    Agrees J (expr ctx e) (expr ctx.unspanned e.unspanned) := by
  induction e with
  | bool id span value | int id span value => exact .pure rfl
  | str id span value => exact (agrees_report hJ _ h.at).bind fun _ => .pure rfl
  | var id name =>
    refine (agrees_slotOf ctx id).bind fun slot => ?_
    cases slot with
    | none => exact .pure rfl
    | some slot => exact (agrees_emitValue _ _).bind fun _ => .pure rfl
  | binary id span op opSpan left right ihl ihr =>
    obtain ⟨-, hleft, -, hright⟩ := Expr.every_binary.1 h
    refine (ihl hleft).bind fun l => (ihr hright).bind fun r => ?_
    have hid : (left.erase fun id => id).id = left.id := left.id_unspanned
    rw [hid]
    exact (agrees_emitValue _ _).bind fun _ => .pure rfl
  | field id span base name | range id span bound =>
    exact (agrees_report hJ _ h.at).bind fun _ => .pure rfl

theorem agrees_print (symbol : String) (span : Span) {arg : Expr} (h : arg.outline.Every P) :
    Agrees J (print ctx symbol span arg) (print ctx.unspanned symbol .blank arg.unspanned) := by
  refine (agrees_declare symbol printSignature).bind fun _ => ?_
  cases arg with
  | str id place text => exact (agrees_constant _).bind fun _ => agrees_emit _ _
  | _ =>
    -- any other value is lowered, and widened if it is a truth value
    refine (agrees_expr hJ ctx h).bind fun value => .ite ?_ ?_
    · refine (agrees_emitValue _ _).bind fun wide => ?_
      rw [pure_bind, pure_bind]
      exact (agrees_constant _).bind fun _ => agrees_emit _ _
    · rw [pure_bind, pure_bind]
      exact (agrees_constant _).bind fun _ => agrees_emit _ _

theorem agrees_argument (callee : String) {arg : Expr} (h : arg.outline.Every P) :
    Agrees J (argument ctx callee arg) (argument ctx.unspanned callee arg.unspanned) := by
  cases arg with
  | str id span text => exact (agrees_constant _).bind fun _ => .pure rfl
  | _ =>
    have htype (id : NodeId) : ctx.unspanned.exprType id = ctx.exprType id := rfl
    simp only [argument, Expr.unspanned, Expr.erase, Expr.id, htype]
    split
    · exact (agrees_report hJ _ (Expr.span_of_every h)).bind fun _ => .pure rfl
    · exact (agrees_expr hJ ctx h).bind fun _ => .pure rfl

theorem agrees_arguments (callee : String) {args : List Expr} (h : ∀ e ∈ args, e.outline.Every P) :
    Agrees J (arguments ctx callee args)
      (arguments ctx.unspanned callee (args.map Expr.unspanned)) := by
  induction args with
  | nil => exact .pure rfl
  | cons arg args ih =>
    rw [forall_mem_cons] at h
    refine (agrees_argument hJ ctx callee h.1).bind fun first => ?_
    cases first with
    | none => exact .pure rfl
    | some first =>
      refine (ih h.2).bind fun rest => ?_
      cases rest with
      | none | some rest => exact .pure rfl

theorem agrees_call (printSymbol : String) {c : Call} (h : c.outline.Every P) :
    Agrees J (call ctx printSymbol c) (call ctx.unspanned printSymbol c.unspanned) := by
  have hknown : (ctx.unspanned.function? c.callee.name).isSome =
      (ctx.function? c.callee.name).isSome := by
    simp
  obtain ⟨hspan, -, hargs⟩ := Call.every_outline.1 h
  obtain ⟨id, span, callee, args⟩ := c
  refine .ite ?_ ?_
  · cases args with
    | nil => exact .pure rfl
    | cons arg args => exact agrees_print hJ ctx printSymbol span (hargs arg mem_cons_self)
  · change Agrees J (if (ctx.function? callee.name).isSome then _ else _)
      (if (ctx.unspanned.function? callee.name).isSome then _ else _)
    rw [hknown]
    refine .ite (.ite (agrees_emit _ _) ?_) ?_
    · exact (agrees_emitValue _ _).bind fun _ => .pure rfl
    · refine (agrees_arguments hJ ctx callee.name hargs).bind fun found => ?_
      cases found with
      | none => exact .pure rfl
      | some args =>
        refine (agrees_declare _ _).bind fun _ => .read fun s _ => ?_
        exact .ite (agrees_emit _ _) (agrees_report hJ _ hspan)

omit ctx in
/-- The declared type of a local. -/
theorem agrees_localType (type : Ty) {span : Span} (h : P span) :
    Agrees J (localType? type span) (localType? type .blank) := by
  unfold localType?
  cases valueType? type with
  | some t => exact .pure rfl
  | none => exact .after (agrees_report hJ _ h) (.pure rfl)

theorem agrees_varDecl {d : VarDecl} (h : d.outline.Every P) :
    Agrees J (varDecl ctx d) (varDecl ctx.unspanned d.unspanned) := by
  obtain ⟨-, -, hname, hinit⟩ := VarDecl.every_outline.1 h
  obtain ⟨id, span, type, name, init⟩ := d
  have hsymbol : ctx.unspanned.declSymbol? id = ctx.declSymbol? id := rfl
  simp only [varDecl, VarDecl.unspanned, VarDecl.erase, hsymbol]
  cases ctx.declSymbol? id with
  | none => exact .pure rfl
  | some var =>
    have htype : (ctx.unspanned.symbols.get? var).map Symbol.type =
        (ctx.symbols.get? var).map Symbol.type := by
      have hget : ctx.unspanned.symbols.get? var = (ctx.symbols.get? var).map Symbol.unspanned :=
        ctx.symbols.get?_unspanned var
      rw [hget, Option.map_map]
      rfl
    simp only [htype]
    refine (agrees_localType hJ _ hname).bind fun found => ?_
    cases found with
    | none => exact .pure rfl
    | some t =>
      refine (agrees_makeSlot var t span).bind fun slot => ?_
      cases init with
      | none => exact agrees_emit _ _
      | some e => exact (agrees_expr hJ ctx (hinit e rfl)).bind fun _ => agrees_emit _ _

theorem agrees_assign (span : Span) {target value : Expr} (htarget : target.outline.Every P)
    (hvalue : value.outline.Every P) :
    Agrees J (assign ctx span target value)
      (assign ctx.unspanned .blank target.unspanned value.unspanned) := by
  cases target with
  | var id name =>
    refine (agrees_slotOf ctx id).bind fun slot => ?_
    cases slot with
    | none => exact .pure rfl
    | some slot => exact (agrees_expr hJ ctx hvalue).bind fun _ => agrees_emit _ _
  | _ => exact agrees_report hJ _ (Expr.span_of_every htarget)

end Expressions

section Statements

theorem literalBound?_unspanned (e : Expr) : literalBound? e.unspanned = literalBound? e := by
  cases e with
  | range id span bound => cases bound <;> rfl
  | _ => rfl

variable (ctx : Context) (printSymbol : String)

mutual

theorem agrees_stmt (hJ : Admits P J) (s : Stmt) (h : s.Every P) :
    Agrees J (stmt ctx printSymbol s) (stmt ctx.unspanned printSymbol s.unspanned) := by
  match s with
  | .varDecl d => exact agrees_varDecl hJ ctx (Stmt.every_varDecl.1 h)
  | .assign span target value =>
    obtain ⟨-, htarget, hvalue⟩ := Stmt.every_assign.1 h
    exact agrees_assign hJ ctx span htarget hvalue
  | .call _ c => exact agrees_call hJ ctx printSymbol (Stmt.every_call.1 h).2
  | .block body => exact agrees_block hJ body (Stmt.every_block.1 h)
  | .ifElse _ cond thenBody none =>
    obtain ⟨-, hcond, hthen⟩ := Stmt.every_ifThen.1 h
    refine (agrees_expr hJ ctx hcond).bind fun c => agrees_freshBlock.bind fun thenBlock => ?_
    refine agrees_freshBlock.bind fun merge => (agrees_close _ _).bind fun _ => ?_
    exact (agrees_block hJ thenBody hthen).bind fun _ => agrees_close _ _
  | .ifElse _ cond thenBody (some elseBody) =>
    obtain ⟨-, hcond, hthen, helse⟩ := Stmt.every_ifElse.1 h
    refine (agrees_expr hJ ctx hcond).bind fun c => agrees_freshBlock.bind fun thenBlock => ?_
    refine agrees_freshBlock.bind fun elseBlock => agrees_freshBlock.bind fun merge => ?_
    refine (agrees_close _ _).bind fun _ => (agrees_block hJ thenBody hthen).bind fun _ => ?_
    refine (agrees_close _ _).bind fun _ => (agrees_block hJ elseBody helse).bind fun _ => ?_
    exact agrees_close _ _
  | .whileLoop _ cond body =>
    obtain ⟨-, hcond, hbody⟩ := Stmt.every_whileLoop.1 h
    refine agrees_freshBlock.bind fun header => agrees_freshBlock.bind fun inside => ?_
    refine agrees_freshBlock.bind fun exit => (agrees_close _ _).bind fun _ => ?_
    refine (agrees_expr hJ ctx hcond).bind fun c => (agrees_close _ _).bind fun _ => ?_
    exact (agrees_block hJ body hbody).bind fun _ => agrees_close _ _
  | .forIn id span var iter body =>
    obtain ⟨-, -, hiter, hbody⟩ := Stmt.every_forIn.1 h
    have hplace := Expr.span_of_every hiter
    have hbound : literalBound? (iter.erase fun id => id) = literalBound? iter :=
      literalBound?_unspanned iter
    have hsymbol : ctx.unspanned.declSymbol? id = ctx.declSymbol? id := rfl
    simp only [Stmt.erase, stmt, hbound, iter.span_erase, hsymbol]
    cases literalBound? iter with
    | none => exact agrees_report hJ _ hplace
    | some count =>
      refine .ite (agrees_report hJ _ hplace) ?_
      cases ctx.declSymbol? id with
      | none => exact .pure rfl
      | some sym =>
        refine (agrees_makeSlot sym .i32 var.span).bind fun slot => ?_
        -- every copy of the body behind the store of its number
        have hcopies := Unspans.forM (i := fun n : Nat => n)
          fun n (_ : n ∈ List.range count) =>
            (agrees_emit span (.store .i32 (.const32 (Int32.ofNat n)) slot)).bind
              fun _ => agrees_block hJ body hbody
        rwa [map_id'] at hcopies
  | .ret _ _ => exact agrees_freshBlock.bind fun dead => .read fun s _ => agrees_close _ _
  | .defer _ _ => exact .pure rfl
  | .cleanup ⟨_, _, _, action⟩ =>
    cases action with
    | deferred c => exact agrees_call hJ ctx printSymbol (forall_mem_singleton.1 h)
    | destructor | releasedBy owner => exact .pure rfl

theorem agrees_block (hJ : Admits P J) (b : BlockOf Stmt) (h : (outlineOfBlock b).Every P) :
    Agrees J (block ctx printSymbol b) (block ctx.unspanned printSymbol (Block.unspanned b)) := by
  match b with
  | ⟨_, _, body⟩ => exact agrees_stmts hJ body (every_outlineOfBlock.1 h).2

theorem agrees_stmts (hJ : Admits P J) (ss : List Stmt) (h : ∀ o ∈ outlinesOfStmts ss, o.Every P) :
    Agrees J (stmts ctx printSymbol ss)
      (stmts ctx.unspanned printSymbol (eraseStmts (fun id => id) ss)) := by
  match ss with
  | [] => exact .pure rfl
  | s :: ss =>
    obtain ⟨hs, hss⟩ := every_cons.1 h
    exact (agrees_stmt hJ s hs).bind fun _ => agrees_stmts hJ ss hss

end

theorem agrees_finish : Agrees J finish finish := by
  refine .read fun s _ => ?_
  have hreached : s.unspanned.blocks.any (s.unspanned.current ∈ ·.term.targets) =
      s.blocks.any (s.current ∈ ·.term.targets) :=
    any_map
  have hinstrs : s.unspanned.instrs ≠ [] ↔ s.instrs ≠ [] :=
    not_congr map_eq_nil_iff
  simp only [hreached, hinstrs]
  exact .ite (agrees_freshBlock.bind fun next => agrees_close _ _) (.pure rfl)

theorem withSlots_unspanned (slots : List Instr) (blocks : List BasicBlock) :
    withSlots (slots.map Instr.unspanned) (blocks.map BasicBlock.unspanned) =
      (withSlots slots blocks).map BasicBlock.unspanned := by
  induction blocks with
  | nil => rfl
  | cons b rest ih =>
    have hid : b.unspanned.id = b.id := rfl
    simp only [map_cons, withSlots, hid, ih]
    split
    · simp [BasicBlock.unspanned]
    · rfl

theorem agrees_function (hJ : Admits P J) {f : DeferLang.Function}
    (h : (outlineOfBlock f.body).Every P) :
    Agrees J (function ctx printSymbol f) (function ctx.unspanned printSymbol f.unspanned) := by
  refine Unspans.bind (.modify fun _ hs => ⟨rfl, hs⟩) fun _ => ?_
  refine (agrees_block ctx printSymbol hJ f.body h).bind fun _ => agrees_finish.bind fun _ => ?_
  refine .modify fun s hs => ⟨?_, hs⟩
  have hblocks := withSlots_unspanned s.slotInstrs.reverse s.blocks.reverse
  rw [map_reverse, map_reverse] at hblocks
  have hinsert := insertNamed_mapSnd Function.unspanned f.name.name
    { name := f.name.name, span := f.span, result := s.result,
      blocks := withSlots s.slotInstrs.reverse s.blocks.reverse, entry := entryBlock }
    s.module.functions
  simp only [Lowering.unspanned, Module.unspanned, hblocks, ← hinsert]
  rfl

theorem agrees_program (hJ : Admits P J) {p : Program} (h : ∀ f ∈ p.functions, f.outline.Every P) :
    Agrees J (program ctx printSymbol p) (program ctx.unspanned printSymbol p.unspanned) := by
  refine Unspans.forM (i := DeferLang.Function.unspanned) fun f hf => ?_
  obtain ⟨-, hname, hbody⟩ := Function.every_outline.1 (h f hf)
  exact .ite (agrees_report hJ _ hname) (agrees_function ctx printSymbol hJ hbody)

end Statements

end Lower

/-- Lowering does not look at spans: it makes the same module, and finds the same faults. -/
theorem lowerProgram_unspanned (ctx : Context) (options : LowerOptions) (name : String)
    (p : Program) :
    lowerProgram ctx.unspanned options name p.unspanned =
      ((lowerProgram ctx options name p).1.unspanned,
        (lowerProgram ctx options name p).2.map LowerError.unspanned) := by
  obtain ⟨hrun, -⟩ := Lower.agrees_program (P := fun _ => True) (J := fun _ => True) ctx
    options.printSymbol (fun _ _ _ _ _ => trivial) (p := p) (fun _ _ _ _ => trivial)
    { module := { name, targetTriple := options.targetTriple } } trivial
  have hstart : Lowering.unspanned { module := { name, targetTriple := options.targetTriple } } =
      { module := { name, targetTriple := options.targetTriple } } := rfl
  rw [hstart] at hrun
  simp only [lowerProgram, hrun, map_reverse]
  rfl

/-- What cannot be expressed in target code stands at parts of the program. -/
theorem errors_lowerProgram {P : Span → Prop} {p : Program}
    (h : ∀ f ∈ p.functions, f.outline.Every P) (ctx : Context) (options : LowerOptions)
    (name : String) : ∀ e ∈ (lowerProgram ctx options name p).2, P e.span := by
  have hplaces : Lower.Admits P fun errors => ∀ e ∈ errors, P e.span :=
    fun _ _ _ hspan hs => forall_mem_cons.2 ⟨hspan, hs⟩
  obtain ⟨-, herrors⟩ := Lower.agrees_program ctx options.printSymbol hplaces h
    { module := { name, targetTriple := options.targetTriple } } (forall_mem_nil _)
  exact fun e he => herrors e (mem_reverse.1 he)

section Verification

theorem collectBlocks_unspanned (blocks : List BasicBlock) :
    collectBlocks (blocks.map BasicBlock.unspanned) = collectBlocks blocks :=
  foldlM_map

theorem Function.definitions_unspanned (f : Function) :
    f.unspanned.definitions = f.definitions := by
  refine foldlM_map.trans ?_
  unfold definitions
  congr 1
  funext defs b
  exact foldlM_map

variable (m : Module)

theorem Module.signature?_unspanned (name : String) :
    m.unspanned.signature? name = m.signature? name := by
  have hlookup : m.unspanned.functions.lookup name =
      (m.functions.lookup name).map Function.unspanned :=
    lookup_mapSnd Function.unspanned m.functions name
  rw [signature?, signature?, hlookup]
  cases m.functions.lookup name <;> rfl

theorem Module.checkArgs_unspanned (defs : Definitions) (callee : String) (index : Nat)
    (params : List ValueType) (args : CallArgs) :
    m.unspanned.checkArgs defs callee index params args =
      m.checkArgs defs callee index params args := by
  have hoperand : m.unspanned.checkOperand = m.checkOperand := rfl
  induction args generalizing index params with
  | nil => cases params <;> rfl
  | cons arg args ih => cases params <;> simp only [checkArgs, hoperand, ih]

theorem Module.checkOperation_unspanned (defs : Definitions) (operation : Operation) :
    m.unspanned.checkOperation defs operation = m.checkOperation defs operation := by
  cases operation with
  | call callee result args =>
    simp only [checkOperation, checkCall, m.signature?_unspanned, m.checkArgs_unspanned]
  | _ => rfl

theorem Module.checkBlock_unspanned (f : Function) (blocks : Std.HashSet BlockId)
    (defs : Definitions) (b : BasicBlock) :
    m.unspanned.checkBlock f.unspanned blocks defs b.unspanned = m.checkBlock f blocks defs b := by
  have hinstrs : (b.unspanned.instrs.forM fun i => m.unspanned.checkOperation defs i.operation) =
      b.instrs.forM fun i => m.checkOperation defs i.operation := by
    simp only [m.checkOperation_unspanned]
    exact forM_map ..
  have hterm : m.unspanned.checkTerminator f.unspanned blocks defs b.unspanned =
      m.checkTerminator f blocks defs b := rfl
  rw [checkBlock, checkBlock, hinstrs, hterm]

theorem Module.checkFunction_unspanned (name : String) (f : Function) :
    m.unspanned.checkFunction name f.unspanned = m.checkFunction name f := by
  have hblocks (blocks : Std.HashSet BlockId) (defs : Definitions) :
      f.unspanned.blocks.forM (m.unspanned.checkBlock f.unspanned blocks defs) =
        f.blocks.forM (m.checkBlock f blocks defs) := by
    refine (forM_map ..).trans ?_
    simp only [m.checkBlock_unspanned]
    rfl
  have hcollect : collectBlocks f.unspanned.blocks = collectBlocks f.blocks :=
    collectBlocks_unspanned f.blocks
  have hempty : f.unspanned.blocks.isEmpty = f.blocks.isEmpty := isEmpty_map
  simp only [checkFunction, hcollect, hempty, f.definitions_unspanned, hblocks]
  rfl

/-- Verification does not look at spans. -/
theorem Module.verify_unspanned : m.unspanned.verify = m.verify := by
  refine (forM_map ..).trans ?_
  simp only [m.checkFunction_unspanned]
  rfl

end Verification

section Text

variable (m : Module)

theorem Module.basicBlockText_unspanned (b : BasicBlock) :
    m.unspanned.basicBlockText b.unspanned = m.basicBlockText b := by
  have hinstrs : b.unspanned.instrs.map m.unspanned.instrText = b.instrs.map m.instrText :=
    map_map
  rw [basicBlockText, basicBlockText, hinstrs]
  rfl

theorem Module.functionText_unspanned (f : Function) :
    m.unspanned.functionText f.unspanned = m.functionText f := by
  have horder : f.unspanned.printOrder = f.printOrder.map BasicBlock.unspanned := by
    simp only [Function.printOrder, Function.unspanned, filter_map, map_append]
    rfl
  have hblocks : f.unspanned.printOrder.map m.unspanned.basicBlockText =
      f.printOrder.map m.basicBlockText := by
    rw [horder, map_map]
    exact map_congr_left fun b _ => m.basicBlockText_unspanned b
  rw [functionText, functionText, hblocks]
  rfl

/-- What the text of a module is made of. -/
theorem Module.text_congr {m m' : Module} (hname : m'.name = m.name)
    (htriple : m'.targetTriple = m.targetTriple) (hconstants : m'.constants = m.constants)
    (hexterns : m'.externs = m.externs)
    (hfunctions : m'.functions.map (fun p => m'.functionText p.2) =
      m.functions.map fun p => m.functionText p.2) :
    m'.text = m.text := by
  unfold text
  rw [hname, htriple, hconstants, hexterns]
  congr 1
  exact congrArg "\n".intercalate hfunctions

/-- The text of a module does not show spans. -/
theorem Module.text_unspanned : m.unspanned.text = m.text := by
  refine text_congr rfl rfl rfl rfl (map_map.trans ?_)
  exact map_congr_left fun p _ => m.functionText_unspanned p.2

end Text

end Code

end DeferLang
