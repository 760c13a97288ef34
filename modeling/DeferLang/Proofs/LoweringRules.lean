import DeferLang.Code.Lower
import DeferLang.Proofs.TypingRules

/-!
# Lowering rules

What it means that target code is made from a piece of program, apart from how lowering
makes it: which instructions stand for an expression (`Code.Computes`), and how a
statement changes the state (`Code.LowersStmt`).  Every fact about target code is proved
from these rules.  The symbols in scope are those of the typing rules.
-/

namespace DeferLang

open List

namespace Code

variable {call : Call} {args : CallArgs} {es : List Expr} {span : Span} {α : Type}

/-- The types of operands that an operator takes. -/
def Operator.Takes (op : Operator) (type : ValueType) : Prop :=
  match op with
  | .and => type = .i1
  | .eq => type = .i32 ∨ type = .i1
  | .ne => type = .i32 ∨ type = .i1
  | _ => type = .i32

/-- The type of an operator's result over operands of a type. -/
def Operator.result (op : Operator) (type : ValueType) : ValueType :=
  if op.isCompare then .i1 else type

/-- The slots of symbols. -/
abbrev Slots := List (SymbolId × ValueId × ValueType)

/-- The instructions for an expression, the first of which defines the value `first`, the operand
that holds its value behind them, and the type of the operand. -/
inductive Computes (ctx : Context) (scope : List SymbolId) (slots : Slots) :
    ValueId → Expr → List Instr → Operand → ValueType → Prop
  | int {first : ValueId} {id : NodeId} {span : Span} {value : Nat} :
      value ≤ maxInt → Computes ctx scope slots first (.int id span value) [] (literal value) .i32
  | bool {first : ValueId} {id : NodeId} {span : Span} {value : Bool} :
      Computes ctx scope slots first (.bool id span value) [] (.const1 value) .i1
  | var {first slot : ValueId} {id : NodeId} {name : Ident} {symbol : SymbolId}
      {type : ValueType} :
      ctx.resolve? id = some symbol → symbol ∈ scope → slots.lookup symbol = some (slot, type) →
      Computes ctx scope slots first (.var id name) [⟨name.span, some first, .load type slot⟩]
        (.value first) type
  | binary {first : ValueId} {id : NodeId} {span opSpan : Span} {op : BinOp} {left right : Expr}
      {leftCode rightCode : List Instr} {l r : Operand} {type : ValueType} :
      Computes ctx scope slots first left leftCode l type →
      Computes ctx scope slots (first + leftCode.length) right rightCode r type →
      (operatorOf op).Takes type →
      Computes ctx scope slots first (.binary id span op opSpan left right)
        (leftCode ++ (rightCode ++ [⟨span, some (first + leftCode.length + rightCode.length),
          .binary (operatorOf op) type l r⟩]))
        (.value (first + leftCode.length + rightCode.length)) ((operatorOf op).result type)

/-- The instructions for the number that is printed for an expression, and its operand. -/
inductive Prints (ctx : Context) (scope : List SymbolId) (slots : Slots) (first : ValueId)
    (arg : Expr) : List Instr → Operand → Prop
  | number {code : List Instr} {x : Operand} :
      Computes ctx scope slots first arg code x .i32 → Prints ctx scope slots first arg code x
  | truth {code : List Instr} {x : Operand} :
      Computes ctx scope slots first arg code x .i1 →
      Prints ctx scope slots first arg
        (code ++ [⟨arg.span, some (first + code.length), .widen x⟩])
        (.value (first + code.length))

/-- The module with a routine from outside declared, unless its name is declared already. -/
def Module.declared (m : Module) (name : String) (s : Signature) : Module :=
  match m.externs.lookup name with
  | some _ => m
  | none => { m with externs := insertNamed name s m.externs }

namespace Lowering

/-- Behind an instruction without result. -/
def emitted (s : Lowering) (span : Span) (operation : Operation) : Lowering :=
  { s with instrs := ⟨span, none, operation⟩ :: s.instrs }

/-- Behind instructions that define the next values. -/
def computed (s : Lowering) (code : List Instr) : Lowering :=
  { s with instrs := code.reverse ++ s.instrs, nextValue := s.nextValue + code.length }

theorem computed_append (s : Lowering) (code more : List Instr) :
    (s.computed code).computed more = s.computed (code ++ more) := by
  simp only [computed, reverse_append, append_assoc, length_append, Nat.add_assoc]

/-- Behind the making of a slot. -/
def withSlot (s : Lowering) (var : SymbolId) (type : ValueType) (span : Span) : Lowering :=
  { s with
    nextValue := s.nextValue + 1
    slotInstrs := ⟨span, some s.nextValue, .slot type⟩ :: s.slotInstrs
    slots := (var, s.nextValue, type) :: s.slots }

/-- Behind the end of the block that was filled. -/
def closed (s : Lowering) (term : Terminator) (next : BlockId) : Lowering :=
  { s with
    blocks := ⟨s.current, s.instrs.reverse, term⟩ :: s.blocks
    instrs := []
    current := next }

/-- With the numbers of further blocks taken. -/
def reserved (s : Lowering) (count : Nat) : Lowering :=
  { s with nextBlock := s.nextBlock + count }

/-- With another module. -/
def inModule (s : Lowering) (m : Module) : Lowering :=
  { s with module := m }

end Lowering

/-- Arguments of a routine from outside are lowered one after the other, to operands with their
types. -/
inductive LowersArgs (ctx : Context) (scope : List SymbolId) :
    Lowering → List Expr → Lowering → CallArgs → Prop
  | nil {s : Lowering} : LowersArgs ctx scope s [] s []
  | text {s s' : Lowering} {id : NodeId} {span : Span} {text : String} {args : List Expr}
      {rest : CallArgs} :
      LowersArgs ctx scope (s.inModule (s.module.intern text).1) args s' rest →
      LowersArgs ctx scope s (.str id span text :: args) s'
        ((.ptr, .address (s.module.intern text).2) :: rest)
  | value {s s' : Lowering} {arg : Expr} {args : List Expr} {code : List Instr} {x : Operand}
      {type : ValueType} {rest : CallArgs} :
      Computes ctx scope s.slots s.nextValue arg code x type →
      LowersArgs ctx scope (s.computed code) args s' rest →
      LowersArgs ctx scope s (arg :: args) s' ((type, x) :: rest)

/-- The module in which a text is printed: the print routine and the text are known. -/
def Module.printing (m : Module) (printSymbol format : String) : Module × String :=
  (m.declared printSymbol Lower.printSignature).intern format

/-- A call is lowered. -/
inductive LowersCall (ctx : Context) (printSymbol : String) (scope : List SymbolId) :
    Lowering → Call → Lowering → Prop
  | printText {s : Lowering} {call : Call} {id : NodeId} {span : Span} {text : String} :
      call.callee.name = printName → call.args = [.str id span text] →
      LowersCall ctx printSymbol scope s call
        ((s.inModule (s.module.printing printSymbol (Lower.printFormat text)).1).emitted call.span
          (.call printSymbol .i32
            [(.ptr, .address (s.module.printing printSymbol (Lower.printFormat text)).2)]))
  | printNumber {s : Lowering} {call : Call} {arg : Expr} {code : List Instr} {x : Operand} :
      call.callee.name = printName → call.args = [arg] →
      Prints ctx scope s.slots s.nextValue arg code x →
      LowersCall ctx printSymbol scope s call
        (((s.computed code).inModule (s.module.printing printSymbol "%d\n").1).emitted call.span
          (.call printSymbol .i32
            [(.ptr, .address (s.module.printing printSymbol "%d\n").2), (.i32, x)]))
  | function {s : Lowering} {call : Call} :
      call.callee.name ≠ printName → (ctx.function? call.callee.name).isSome = true →
      call.args = [] → resultType call.callee.name = .void →
      LowersCall ctx printSymbol scope s call
        (s.emitted call.span (.call call.callee.name .void []))
  | main {s : Lowering} {call : Call} :
      call.callee.name ≠ printName → (ctx.function? call.callee.name).isSome = true →
      call.args = [] → resultType call.callee.name = .i32 →
      LowersCall ctx printSymbol scope s call
        (s.computed [⟨call.span, some s.nextValue, .call call.callee.name .i32 []⟩])
  | routine {s s' : Lowering} {call : Call} {args : CallArgs} :
      call.callee.name ≠ printName → ctx.function? call.callee.name = none →
      LowersArgs ctx scope s call.args s' args →
      (s'.module.declared call.callee.name ⟨.void, args.map Prod.fst, false⟩).externs.lookup
        call.callee.name = some ⟨.void, args.map Prod.fst, false⟩ →
      LowersCall ctx printSymbol scope s call
        ((s'.inModule
          (s'.module.declared call.callee.name ⟨.void, args.map Prod.fst, false⟩)).emitted
          call.span (.call call.callee.name .void args))

mutual

/-- A statement is lowered with the first symbols in scope; behind it the second are. -/
inductive LowersStmt (ctx : Context) (printSymbol : String) :
    List SymbolId → Lowering → Stmt → Lowering → List SymbolId → Prop
  | declareZero {scope : List SymbolId} {s : Lowering} {d : VarDecl} {symbol : SymbolId} {type : Ty}
      {t : ValueType} :
      d.init = none → ctx.declSymbol? d.id = some symbol → symbol ∉ scope →
      ctx.symbolType? symbol = some type → valueType? type = some t →
      LowersStmt ctx printSymbol scope s (.varDecl d)
        ((s.withSlot symbol t d.span).emitted d.span (.store t (zero t) s.nextValue))
        (symbol :: scope)
  | declareInit {scope : List SymbolId} {s : Lowering} {d : VarDecl} {init : Expr}
      {symbol : SymbolId} {type : Ty} {t : ValueType} {code : List Instr} {x : Operand} :
      d.init = some init → ctx.declSymbol? d.id = some symbol → symbol ∉ scope →
      ctx.symbolType? symbol = some type → valueType? type = some t →
      Computes ctx scope (s.withSlot symbol t d.span).slots (s.nextValue + 1) init code x t →
      LowersStmt ctx printSymbol scope s (.varDecl d)
        (((s.withSlot symbol t d.span).computed code).emitted d.span (.store t x s.nextValue))
        (symbol :: scope)
  | assign {scope : List SymbolId} {s : Lowering} {span : Span} {id : NodeId} {name : Ident}
      {value : Expr} {symbol : SymbolId} {slot : ValueId} {t : ValueType} {code : List Instr}
      {x : Operand} :
      ctx.resolve? id = some symbol → symbol ∈ scope →
      s.slots.lookup symbol = some (slot, t) →
      Computes ctx scope s.slots s.nextValue value code x t →
      LowersStmt ctx printSymbol scope s (.assign span (.var id name) value)
        ((s.computed code).emitted span (.store t x slot)) scope
  | call {scope : List SymbolId} {s s' : Lowering} {span : Span} {call : Call} :
      LowersCall ctx printSymbol scope s call s' →
      LowersStmt ctx printSymbol scope s (.call span call) s' scope
  | block {scope inner : List SymbolId} {s s' : Lowering} {body : BlockOf Stmt} :
      LowersBlock ctx printSymbol scope s body s' inner →
      LowersStmt ctx printSymbol scope s (.block body) s' inner
  | ifThen {scope inner : List SymbolId} {s s' : Lowering} {span : Span} {cond : Expr}
      {thenBody : BlockOf Stmt} {code : List Instr} {x : Operand} :
      Computes ctx scope s.slots s.nextValue cond code x .i1 →
      LowersBlock ctx printSymbol scope
        (((s.computed code).reserved 2).closed (.branch x s.nextBlock (s.nextBlock + 1))
          s.nextBlock)
        thenBody s' inner →
      LowersStmt ctx printSymbol scope s (.ifElse span cond thenBody none)
        (s'.closed (.jump (s.nextBlock + 1)) (s.nextBlock + 1)) scope
  | ifElse {scope inner inner' : List SymbolId} {s s₁ s₂ : Lowering} {span : Span} {cond : Expr}
      {thenBody elseBody : BlockOf Stmt} {code : List Instr} {x : Operand} :
      Computes ctx scope s.slots s.nextValue cond code x .i1 →
      LowersBlock ctx printSymbol scope
        (((s.computed code).reserved 3).closed (.branch x s.nextBlock (s.nextBlock + 1))
          s.nextBlock)
        thenBody s₁ inner →
      LowersBlock ctx printSymbol scope
        (s₁.closed (.jump (s.nextBlock + 2)) (s.nextBlock + 1)) elseBody s₂ inner' →
      LowersStmt ctx printSymbol scope s (.ifElse span cond thenBody (some elseBody))
        (s₂.closed (.jump (s.nextBlock + 2)) (s.nextBlock + 2)) scope
  | whileLoop {scope inner : List SymbolId} {s s' : Lowering} {span : Span} {cond : Expr}
      {body : BlockOf Stmt} {code : List Instr} {x : Operand} :
      Computes ctx scope s.slots s.nextValue cond code x .i1 →
      LowersBlock ctx printSymbol scope
        ((((s.reserved 3).closed (.jump s.nextBlock) s.nextBlock).computed code).closed
          (.branch x (s.nextBlock + 1) (s.nextBlock + 2)) (s.nextBlock + 1))
        body s' inner →
      LowersStmt ctx printSymbol scope s (.whileLoop span cond body)
        (s'.closed (.jump s.nextBlock) (s.nextBlock + 2)) scope
  | forIn {scope : List SymbolId} {s s' : Lowering} {id boundId litId : NodeId}
      {span boundSpan litSpan : Span} {var : Ident} {body : BlockOf Stmt} {count : Nat}
      {symbol : SymbolId} :
      count ≤ maxUnroll → ctx.declSymbol? id = some symbol → symbol ∉ scope →
      ctx.symbolType? symbol = some .int →
      LowersCopies ctx printSymbol (symbol :: scope) span s.nextValue (List.range count)
        (s.withSlot symbol .i32 var.span) body s' →
      LowersStmt ctx printSymbol scope s
        (.forIn id span var (.range boundId boundSpan (.int litId litSpan count)) body) s' scope
  | ret {scope : List SymbolId} {s : Lowering} {span : Span} :
      LowersStmt ctx printSymbol scope s (.ret span none)
        ((s.reserved 1).closed (Lower.returnTerm s.result) s.nextBlock) scope
  | defer {scope : List SymbolId} {s : Lowering} {span : Span} {call : Call} :
      LowersStmt ctx printSymbol scope s (.defer span call) s scope
  | deferred {scope : List SymbolId} {s s' : Lowering} {item : Cleanup} {call : Call} :
      item.action = .deferred call → LowersCall ctx printSymbol scope s call s' →
      LowersStmt ctx printSymbol scope s (.cleanup item) s' scope
  | cleanup {scope : List SymbolId} {s : Lowering} {item : Cleanup} :
      (∀ call, item.action ≠ .deferred call) →
      LowersStmt ctx printSymbol scope s (.cleanup item) s scope

/-- A block is lowered. -/
inductive LowersBlock (ctx : Context) (printSymbol : String) :
    List SymbolId → Lowering → BlockOf Stmt → Lowering → List SymbolId → Prop
  | mk {scope scope' : List SymbolId} {s s' : Lowering} {id : NodeId} {span : Span}
      {stmts : List Stmt} :
      LowersStmts ctx printSymbol scope s stmts s' scope' →
      LowersBlock ctx printSymbol scope s ⟨id, span, stmts⟩ s' scope'

/-- Statements are lowered one after the other. -/
inductive LowersStmts (ctx : Context) (printSymbol : String) :
    List SymbolId → Lowering → List Stmt → Lowering → List SymbolId → Prop
  | nil {scope : List SymbolId} {s : Lowering} : LowersStmts ctx printSymbol scope s [] s scope
  | cons {scope mid scope' : List SymbolId} {s s₁ s' : Lowering} {stmt : Stmt}
      {stmts : List Stmt} :
      LowersStmt ctx printSymbol scope s stmt s₁ mid →
      LowersStmts ctx printSymbol mid s₁ stmts s' scope' →
      LowersStmts ctx printSymbol scope s (stmt :: stmts) s' scope'

/-- The body of a loop is lowered once for each value of the loop variable, which is stored in
`slot`. -/
inductive LowersCopies (ctx : Context) (printSymbol : String) :
    List SymbolId → Span → ValueId → List Nat → Lowering → BlockOf Stmt → Lowering → Prop
  | nil {scope : List SymbolId} {span : Span} {slot : ValueId} {s : Lowering}
      {body : BlockOf Stmt} : LowersCopies ctx printSymbol scope span slot [] s body s
  | cons {scope inner : List SymbolId} {span : Span} {slot : ValueId} {i : Nat} {is : List Nat}
      {s s₁ s' : Lowering} {body : BlockOf Stmt} :
      LowersBlock ctx printSymbol scope
        (s.emitted span (.store .i32 (.const32 (Int32.ofNat i)) slot)) body s₁ inner →
      LowersCopies ctx printSymbol scope span slot is s₁ body s' →
      LowersCopies ctx printSymbol scope span slot (i :: is) s body s'

end

section Calls

mutual

/-- The calls that a statement may perform. -/
def callsOfStmt : Stmt → List Call
  | .varDecl _ => []
  | .assign _ _ _ => []
  | .call _ c => [c]
  | .block body => callsOfBlock body
  | .ifElse _ _ thenBody none => callsOfBlock thenBody
  | .ifElse _ _ thenBody (some elseBody) => callsOfBlock thenBody ++ callsOfBlock elseBody
  | .whileLoop _ _ body => callsOfBlock body
  -- a loop that never runs has no calls
  | .forIn _ _ _ iter body => if Lower.literalBound? iter = some 0 then [] else callsOfBlock body
  | .ret _ _ => []
  | .defer _ _ => []
  | .cleanup item =>
    match item.action with
    | .deferred c => [c]
    | .destructor => []
    | .releasedBy _ => []

def callsOfBlock : BlockOf Stmt → List Call
  | ⟨_, _, body⟩ => callsOfStmts body

def callsOfStmts : List Stmt → List Call
  | [] => []
  | s :: ss => callsOfStmt s ++ callsOfStmts ss

end

theorem callsOfStmt_deferred {item : Cleanup} (h : item.action = .deferred call) :
    callsOfStmt (.cleanup item) = [call] := by
  rw [callsOfStmt, h]

/-- The body of a loop that runs has the calls of the loop. -/
theorem callsOfStmt_forIn {id : NodeId} {var : Ident} {boundId litId : NodeId}
    {boundSpan litSpan : Span} {count : Nat} (hcount : count ≠ 0) (body : BlockOf Stmt) :
    callsOfStmt (.forIn id span var (.range boundId boundSpan (.int litId litSpan count)) body) =
      callsOfBlock body :=
  if_neg fun h => hcount (Option.some.inj h)

end Calls

/-- A relation between states that holds across every step of lowering.  Slots are made for symbols
outside of the scope, and the calls are among the given ones. -/
structure Stepwise (ctx : Context) (printSymbol : String) (scope : List SymbolId)
    (calls : List Call) (R : Lowering → Lowering → Prop) : Prop where
  refl : ∀ s, R s s
  trans : ∀ {s s' s''}, R s s' → R s' s'' → R s s''
  withSlot : ∀ s var type span, var ∉ scope → R s (s.withSlot var type span)
  computed : ∀ {s inner first e code x type},
    Computes ctx inner s.slots first e code x type → R s (s.computed code)
  stored : ∀ s span type x slot, (∀ name, x ≠ .address name) →
    R s (s.emitted span (.store type x slot))
  closed : ∀ s count term next, R s ((s.reserved count).closed term next)
  call : ∀ {inner s c s'}, c ∈ calls → LowersCall ctx printSymbol inner s c s' → R s s'

section Steps

variable {ctx : Context} {printSymbol : String} {outer : List SymbolId} {calls : List Call}
  {R : Lowering → Lowering → Prop}

theorem Stepwise.mono {calls' : List Call} (h : Stepwise ctx printSymbol outer calls R)
    (hsub : calls' ⊆ calls) : Stepwise ctx printSymbol outer calls' R :=
  { h with call := fun hc => h.call (hsub hc) }

theorem Stepwise.ended (h : Stepwise ctx printSymbol outer calls R) (s : Lowering)
    (term : Terminator) (next : BlockId) : R s (s.closed term next) :=
  h.closed s 0 term next

/-- Expressions have no address of a text as their value. -/
theorem Computes.ne_address {scope : List SymbolId} {slots : Slots} {first : ValueId} {e : Expr}
    {code : List Instr} {x : Operand} {type : ValueType}
    (h : Computes ctx scope slots first e code x type) (name : String) : x ≠ .address name := by
  cases h <;> exact Operand.noConfusion

theorem zero_ne_address (type : ValueType) (name : String) : zero type ≠ .address name := by
  cases type <;> exact Operand.noConfusion

/-- What every copy of a loop body keeps, all copies keep. -/
theorem LowersCopies.keeps {body : BlockOf Stmt} {scope : List SymbolId}
    {slot : ValueId} (hrefl : ∀ s, R s s) (htrans : ∀ s s₁ s₂, R s s₁ → R s₁ s₂ → R s s₂)
    (hstep : ∀ s i s₁ inner, LowersBlock ctx printSymbol scope
      (s.emitted span (.store .i32 (.const32 (Int32.ofNat i)) slot)) body s₁ inner → R s s₁)
    {is : List Nat} {s s' : Lowering}
    (h : LowersCopies ctx printSymbol scope span slot is s body s') : R s s' := by
  induction is generalizing s with
  | nil =>
    cases h
    exact hrefl _
  | cons i is ih =>
    cases h with
    | cons hbody hrest => exact htrans _ _ _ (hstep _ _ _ _ hbody) (ih hrest)

mutual

/-- What holds across every step holds across a statement, behind which there is more in scope. -/
theorem LowersStmt.keeps (st : Stmt) (hR : Stepwise ctx printSymbol outer (callsOfStmt st) R)
    {scope scope' : List SymbolId} {s s' : Lowering}
    (h : LowersStmt ctx printSymbol scope s st s' scope') (hscope : outer ⊆ scope) :
    R s s' ∧ outer ⊆ scope' := by
  match st, h with
  | .varDecl d, @LowersStmt.declareZero _ _ _ _ _ symbol _ t _ _ hnew _ _ =>
    have hslot := hR.withSlot s symbol t d.span fun hmem => hnew (hscope hmem)
    exact ⟨hR.trans hslot (hR.stored _ _ _ _ _ (zero_ne_address t)),
      subset_cons_of_subset _ hscope⟩
  | .varDecl d, @LowersStmt.declareInit _ _ _ _ _ _ symbol _ t _ _ _ _ hnew _ _ hcode =>
    have hslot := hR.withSlot s symbol t d.span fun hmem => hnew (hscope hmem)
    exact ⟨hR.trans (hR.trans hslot (hR.computed hcode)) (hR.stored _ _ _ _ _ hcode.ne_address),
      subset_cons_of_subset _ hscope⟩
  | .assign _ _ _, .assign _ _ _ hcode =>
    exact ⟨hR.trans (hR.computed hcode) (hR.stored _ _ _ _ _ hcode.ne_address), hscope⟩
  | .call _ _, .call hcall => exact ⟨hR.call mem_cons_self hcall, hscope⟩
  | .block body, .block hbody => exact LowersBlock.keeps body hR hbody hscope
  | .ifElse _ _ thenBody none, .ifThen hcode hthen =>
    have hbody := hR.trans (hR.closed _ 2 _ _) (LowersBlock.keeps thenBody hR hthen hscope).1
    exact ⟨hR.trans (hR.trans (hR.computed hcode) hbody) (hR.ended _ _ _), hscope⟩
  | .ifElse _ _ thenBody (some elseBody), .ifElse hcode hthen helse =>
    have hyes := hR.trans (hR.closed _ 3 _ _)
      (LowersBlock.keeps thenBody (hR.mono (subset_append_left _ _)) hthen hscope).1
    have hno := hR.trans (hR.ended _ _ _)
      (LowersBlock.keeps elseBody (hR.mono (subset_append_right _ _)) helse hscope).1
    have hboth := hR.trans (hR.trans (hR.computed hcode) hyes) hno
    exact ⟨hR.trans hboth (hR.ended _ _ _), hscope⟩
  | .whileLoop _ _ body, .whileLoop hcode hlowers =>
    have hbody := hR.trans (hR.ended _ _ _) (LowersBlock.keeps body hR hlowers hscope).1
    have hall := hR.trans (hR.closed s 3 _ _) (hR.trans (hR.computed hcode) hbody)
    exact ⟨hR.trans hall (hR.ended _ _ _), hscope⟩
  | .forIn _ _ var (.range _ _ (.int _ _ count)) body,
    @LowersStmt.forIn _ _ _ _ _ _ _ _ _ _ _ _ _ _ symbol _ _ hnew _ hcopies =>
      refine ⟨hR.trans (hR.withSlot s symbol .i32 var.span fun hmem => hnew (hscope hmem)) ?_,
        hscope⟩
      by_cases hcount : count = 0
      · subst hcount
        cases hcopies
        exact hR.refl _
      · rw [callsOfStmt_forIn hcount] at hR
        refine hcopies.keeps hR.refl (fun _ _ _ => hR.trans) fun s i s₁ inner hbody => ?_
        exact hR.trans (hR.stored _ _ _ _ _ fun _ => Operand.noConfusion)
          (LowersBlock.keeps body hR hbody (subset_cons_of_subset _ hscope)).1
  | .ret _ _, .ret => exact ⟨hR.closed s 1 _ _, hscope⟩
  | .defer _ _, .defer => exact ⟨hR.refl s, hscope⟩
  | .cleanup _, .deferred haction hcall =>
    rw [callsOfStmt_deferred haction] at hR
    exact ⟨hR.call mem_cons_self hcall, hscope⟩
  | .cleanup _, .cleanup _ => exact ⟨hR.refl s, hscope⟩
termination_by structural st

theorem LowersBlock.keeps (b : BlockOf Stmt)
    (hR : Stepwise ctx printSymbol outer (callsOfBlock b) R) {scope scope' : List SymbolId}
    {s s' : Lowering} (h : LowersBlock ctx printSymbol scope s b s' scope')
    (hscope : outer ⊆ scope) : R s s' ∧ outer ⊆ scope' := by
  match b, h with
  | ⟨_, _, stmts⟩, .mk hstmts => exact LowersStmts.keeps stmts hR hstmts hscope
termination_by structural b

theorem LowersStmts.keeps (ss : List Stmt)
    (hR : Stepwise ctx printSymbol outer (callsOfStmts ss) R) {scope scope' : List SymbolId}
    {s s' : Lowering} (h : LowersStmts ctx printSymbol scope s ss s' scope')
    (hscope : outer ⊆ scope) : R s s' ∧ outer ⊆ scope' := by
  match ss, h with
  | [], .nil => exact ⟨hR.refl s, hscope⟩
  | st :: ss, .cons hst hss =>
    have hfirst := LowersStmt.keeps st (hR.mono (subset_append_left _ _)) hst hscope
    have hrest := LowersStmts.keeps ss (hR.mono (subset_append_right _ _)) hss hfirst.2
    exact ⟨hR.trans hfirst.1 hrest.1, hrest.2⟩
termination_by structural ss

end

end Steps

section Slots

variable {ctx : Context} {printSymbol : String} {scope scope' : List SymbolId} {s s' : Lowering}

theorem LowersArgs.slots_eq
    (h : LowersArgs ctx scope s es s' args) : s'.slots = s.slots := by
  induction h with
  | nil => rfl
  | text _ ih => exact ih
  | value _ _ ih => exact ih

theorem LowersCall.slots_eq (h : LowersCall ctx printSymbol scope s call s') :
    s'.slots = s.slots := by
  cases h with
  | printText _ _ | printNumber _ _ _ | function _ _ _ _ | main _ _ _ _ => rfl
  | routine _ _ hargs _ => exact hargs.slots_eq

/-- A new slot is that of its own symbol only. -/
theorem Lowering.lookup_withSlot {symbol var : SymbolId} (hvar : var ∉ scope)
    (hsymbol : symbol ∈ scope) (type : ValueType) (span : Span) :
    (s.withSlot var type span).slots.lookup symbol = s.slots.lookup symbol := by
  have hne : symbol ≠ var := fun heq => hvar (heq ▸ hsymbol)
  rw [withSlot, lookup_cons, beq_false_of_ne hne]

theorem stepwise_lookup (scope : List SymbolId) (calls : List Call) :
    Stepwise ctx printSymbol scope calls
      fun s s' => ∀ symbol ∈ scope, s'.slots.lookup symbol = s.slots.lookup symbol where
  refl _ _ _ := rfl
  trans h h' symbol hsymbol := (h' symbol hsymbol).trans (h symbol hsymbol)
  withSlot _ _ type span hvar _ hsymbol := Lowering.lookup_withSlot hvar hsymbol type span
  computed _ _ _ := rfl
  stored _ _ _ _ _ _ _ _ := rfl
  closed _ _ _ _ _ _ := rfl
  call _ h _ _ := by rw [h.slots_eq]

/-- A symbol in scope keeps its slot. -/
theorem LowersStmt.lookup_slots (st : Stmt) (h : LowersStmt ctx printSymbol scope s st s' scope') :
    ∀ symbol ∈ scope, s'.slots.lookup symbol = s.slots.lookup symbol :=
  (LowersStmt.keeps st (stepwise_lookup scope _) h (List.Subset.refl _)).1

theorem LowersBlock.lookup_slots (b : BlockOf Stmt)
    (h : LowersBlock ctx printSymbol scope s b s' scope') :
    ∀ symbol ∈ scope, s'.slots.lookup symbol = s.slots.lookup symbol :=
  (LowersBlock.keeps b (stepwise_lookup scope _) h (List.Subset.refl _)).1

/-- What is in scope in front of a block is so behind it. -/
theorem LowersBlock.scope_subset (b : BlockOf Stmt)
    (h : LowersBlock ctx printSymbol scope s b s' scope') : scope ⊆ scope' :=
  (LowersBlock.keeps b (stepwise_lookup scope _) h (List.Subset.refl _)).2

end Slots

section Growth

theorem lookup_cons_eq_ite (name n : String) (entry : α) (table : List (String × α)) :
    List.lookup n ((name, entry) :: table) =
      if n = name then some entry else table.lookup n := by
  by_cases hn : n = name
  · rw [hn, lookup_cons_self, if_pos rfl]
  · rw [lookup_cons, beq_false_of_ne hn, if_neg hn]

/-- In a sorted table, a new entry is found by its name, and all others as before. -/
theorem lookup_insertNamed (name n : String) (entry : α) (table : List (String × α)) :
    (insertNamed name entry table).lookup n = if n = name then some entry else table.lookup n := by
  induction table with
  | nil => rw [insertNamed, lookup_cons_eq_ite]
  | cons e rest ih =>
    obtain ⟨key, value⟩ := e
    rw [insertNamed]
    split
    · rename_i hkey
      rw [lookup_cons_eq_ite, lookup_cons_eq_ite, ← hkey]
      by_cases hn : n = name
      · rw [if_pos hn, if_pos hn]
      · rw [if_neg hn, if_neg hn, if_neg hn]
    · rename_i hkey
      split
      · rw [lookup_cons_eq_ite]
      · rw [lookup_cons_eq_ite, lookup_cons_eq_ite, ih]
        by_cases hn : n = name
        · rw [if_neg (fun h => hkey (hn.symm.trans h)), if_pos hn, if_pos hn]
        · rw [if_neg hn, if_neg hn]

/-- A module has all that another has besides functions. -/
structure Module.Extends (m m' : Module) : Prop where
  constants : m.constants <+: m'.constants
  externs : ∀ name s, m.externs.lookup name = some s → m'.externs.lookup name = some s

theorem Module.Extends.refl (m : Module) : m.Extends m :=
  ⟨prefix_refl _, fun _ _ h => h⟩

theorem Module.Extends.trans {m m' m'' : Module} (h : m.Extends m') (h' : m'.Extends m'') :
    m.Extends m'' :=
  ⟨h.constants.trans h'.constants, fun name s hs => h'.externs name s (h.externs name s hs)⟩

/-- A routine keeps the signature of its first declaration. -/
theorem Module.lookup_declared (m : Module) (name n : String) (s : Signature) :
    (m.declared name s).externs.lookup n =
      if n = name then some ((m.externs.lookup name).getD s) else m.externs.lookup n := by
  unfold declared
  split
  · rename_i found hfound
    split
    · rename_i hn
      rw [hn, hfound]
      rfl
    · rfl
  · rename_i hnone
    rw [lookup_insertNamed, hnone]
    rfl

theorem Module.extends_declared (m : Module) (name : String) (s : Signature) :
    m.Extends (m.declared name s) := by
  refine ⟨?_, fun n found hfound => ?_⟩
  · unfold declared
    split
    · exact prefix_refl _
    · exact prefix_refl _
  · rw [m.lookup_declared]
    split
    · rename_i hn
      rw [← hn, hfound]
      rfl
    · exact hfound

theorem Module.externs_intern (m : Module) (text : String) :
    (m.intern text).1.externs = m.externs := by
  unfold intern
  dsimp only
  split
  · rfl
  · rfl

theorem Module.extends_intern (m : Module) (text : String) : m.Extends (m.intern text).1 := by
  unfold intern
  dsimp only
  split
  · exact .refl m
  · exact ⟨prefix_append _ _, fun _ _ h => h⟩

/-- The instructions of the open block and of all closed ones. -/
def Lowering.body (s : Lowering) : List Instr :=
  s.instrs ++ s.blocks.flatMap BasicBlock.instrs

/-- The open block of a state is still open in a later one, or closed, with more instructions. -/
def Lowering.KeepsOpen (s s' : Lowering) : Prop :=
  (s'.current = s.current ∧ s.instrs <:+ s'.instrs) ∨
    ∃ b ∈ s'.blocks, b.id = s.current ∧ s.instrs.reverse <+: b.instrs

/-- The slots of a later state are those of the first and new ones, with new numbers. -/
def Lowering.AddsSlots (s s' : Lowering) : Prop :=
  ∃ new, s'.slots = new ++ s.slots ∧ (new.map (·.2.1)).Nodup ∧
    ∀ entry ∈ new, s.nextValue ≤ entry.2.1 ∧ entry.2.1 < s'.nextValue

/-- What later steps of lowering keep: blocks, slots, and what the module knows. -/
structure Lowering.Grows (s s' : Lowering) : Prop where
  current : s.KeepsOpen s'
  blocks : s.blocks <:+ s'.blocks
  slotInstrs : s.slotInstrs <:+ s'.slotInstrs
  slots : s.AddsSlots s'
  nextValue : s.nextValue ≤ s'.nextValue
  result : s'.result = s.result
  module : s.module.Extends s'.module
  functions : s'.module.functions = s.module.functions

namespace Lowering.Grows

variable {s s' s'' : Lowering}

theorem refl (s : Lowering) : s.Grows s :=
  ⟨.inl ⟨rfl, suffix_refl _⟩, suffix_refl _, suffix_refl _,
    ⟨[], rfl, nodup_nil, fun _ hentry => by contradiction⟩, Nat.le_refl _, rfl, .refl _, rfl⟩

theorem trans (h : s.Grows s') (h' : s'.Grows s'') : s.Grows s'' := by
  refine ⟨?_, h.blocks.trans h'.blocks, h.slotInstrs.trans h'.slotInstrs, ?_,
    Nat.le_trans h.nextValue h'.nextValue, h'.result.trans h.result, h.module.trans h'.module,
    h'.functions.trans h.functions⟩
  · rcases h.current with ⟨hcurrent, hinstrs⟩ | ⟨b, hb, hid, hinstrs⟩
    · rcases h'.current with ⟨hcurrent', hinstrs'⟩ | ⟨b, hb, hid, hinstrs'⟩
      · exact .inl ⟨hcurrent'.trans hcurrent, hinstrs.trans hinstrs'⟩
      · exact .inr ⟨b, hb, hid.trans hcurrent, (List.reverse_prefix.2 hinstrs).trans hinstrs'⟩
    · exact .inr ⟨b, h'.blocks.subset hb, hid, hinstrs⟩
  · obtain ⟨new, hslots, hnodup, hnew⟩ := h.slots
    obtain ⟨new', hslots', hnodup', hnew'⟩ := h'.slots
    refine ⟨new' ++ new, by rw [hslots', hslots, append_assoc], ?_, ?_⟩
    · rw [map_append]
      refine nodup_append.2 ⟨hnodup', hnodup, fun id hid id' hid' heq => ?_⟩
      obtain ⟨entry', hentry', rfl⟩ := mem_map.1 hid
      obtain ⟨entry, hentry, rfl⟩ := mem_map.1 hid'
      exact Nat.lt_irrefl _ (Nat.lt_of_lt_of_le (hnew entry hentry).2
        (heq ▸ (hnew' entry' hentry').1))
    · refine forall_mem_append.2 ⟨fun entry hentry => ?_, fun entry hentry => ?_⟩
      · exact ⟨Nat.le_trans h.nextValue (hnew' entry hentry).1, (hnew' entry hentry).2⟩
      · exact ⟨(hnew entry hentry).1, Nat.lt_of_lt_of_le (hnew entry hentry).2 h'.nextValue⟩

theorem body (h : s.Grows s') : s.body ⊆ s'.body := by
  refine append_subset.2 ⟨fun i hi => ?_, fun i hi => ?_⟩
  · rcases h.current with ⟨-, hinstrs⟩ | ⟨b, hb, -, hinstrs⟩
    · exact mem_append_left _ (hinstrs.subset hi)
    · refine mem_append_right _ (mem_flatMap.2 ⟨b, hb, ?_⟩)
      exact hinstrs.subset (mem_reverse.2 hi)
  · obtain ⟨b, hb, hib⟩ := mem_flatMap.1 hi
    exact mem_append_right _ (mem_flatMap.2 ⟨b, h.blocks.subset hb, hib⟩)

variable (s)

theorem emitted (span : Span) (operation : Operation) : s.Grows (s.emitted span operation) :=
  { refl s with current := .inl ⟨rfl, suffix_cons _ _⟩ }

theorem computed (code : List Instr) : s.Grows (s.computed code) :=
  { refl s with
    current := .inl ⟨rfl, suffix_append _ _⟩
    slots := ⟨[], rfl, nodup_nil, fun _ hentry => by contradiction⟩
    nextValue := Nat.le_add_right _ _ }

theorem withSlot (var : SymbolId) (type : ValueType) (span : Span) :
    s.Grows (s.withSlot var type span) :=
  { refl s with
    slotInstrs := suffix_cons _ _
    slots := ⟨[(var, s.nextValue, type)], rfl, pairwise_singleton _ _,
      forall_mem_singleton.2 ⟨Nat.le_refl _, Nat.lt_succ_self _⟩⟩
    nextValue := Nat.le_succ _ }

theorem closed (count : Nat) (term : Terminator) (next : BlockId) :
    s.Grows ((s.reserved count).closed term next) :=
  { refl s with
    current := .inr ⟨_, mem_cons_self, rfl, prefix_refl _⟩
    blocks := suffix_cons _ _ }

variable {s}

theorem inModule {m : Module} (hm : s.module.Extends m)
    (hfunctions : m.functions = s.module.functions) : s.Grows (s.inModule m) :=
  { refl s with
    module := hm
    functions := hfunctions }

end Lowering.Grows

theorem Module.functions_declared (m : Module) (name : String) (s : Signature) :
    (m.declared name s).functions = m.functions := by
  unfold declared
  split
  · rfl
  · rfl

theorem Module.functions_intern (m : Module) (text : String) :
    (m.intern text).1.functions = m.functions := by
  unfold intern
  dsimp only
  split
  · rfl
  · rfl

variable {ctx : Context} {printSymbol : String} {scope scope' : List SymbolId} {s s' : Lowering}

theorem LowersArgs.grows
    (h : LowersArgs ctx scope s es s' args) : s.Grows s' := by
  induction h with
  | nil => exact .refl _
  | text _ ih =>
    exact (Lowering.Grows.inModule (Module.extends_intern _ _)
      (Module.functions_intern _ _)).trans ih
  | value _ _ ih => exact (Lowering.Grows.computed _ _).trans ih

namespace Lowering.Grows

variable (s : Lowering)

/-- Behind a call of the print routine. -/
theorem printed (printSymbol format : String) (span : Span) (operation : Operation) :
    s.Grows ((s.inModule (s.module.printing printSymbol format).1).emitted span operation) :=
  (inModule ((Module.extends_declared _ _ _).trans (Module.extends_intern _ _))
    ((Module.functions_intern _ _).trans (Module.functions_declared _ _ _))).trans (emitted _ _ _)

/-- Behind a call of a routine that is declared for it. -/
theorem declared (name : String) (signature : Signature) (span : Span) (operation : Operation) :
    s.Grows ((s.inModule (s.module.declared name signature)).emitted span operation) :=
  (inModule (Module.extends_declared _ _ _) (Module.functions_declared _ _ _)).trans
    (emitted _ _ _)

end Lowering.Grows

theorem LowersCall.grows (h : LowersCall ctx printSymbol scope s call s') :
    s.Grows s' := by
  cases h with
  | printText _ _ => exact .printed s _ _ _ _
  | @printNumber _ _ code _ _ _ _ =>
    exact (Lowering.Grows.computed s code).trans (.printed _ _ _ _ _)
  | function _ _ _ _ => exact .emitted s _ _
  | main _ _ _ _ => exact .computed s _
  | routine _ _ hargs _ => exact hargs.grows.trans (.declared _ _ _ _ _)

theorem stepwise_grows (calls : List Call) :
    Stepwise ctx printSymbol [] calls Lowering.Grows where
  refl := .refl
  trans := .trans
  withSlot s _ _ _ _ := .withSlot s _ _ _
  computed _ := .computed _ _
  stored s _ _ _ _ _ := .emitted s _ _
  closed := .closed
  call _ h := h.grows

/-- Lowering a statement keeps what was made before. -/
theorem LowersStmt.grows (st : Stmt) (h : LowersStmt ctx printSymbol scope s st s' scope') :
    s.Grows s' :=
  (LowersStmt.keeps st (stepwise_grows _) h (nil_subset _)).1

theorem LowersBlock.grows (b : BlockOf Stmt) (h : LowersBlock ctx printSymbol scope s b s' scope') :
    s.Grows s' :=
  (LowersBlock.keeps b (stepwise_grows _) h (nil_subset _)).1

theorem LowersStmts.grows (ss : List Stmt) (h : LowersStmts ctx printSymbol scope s ss s' scope') :
    s.Grows s' :=
  (LowersStmts.keeps ss (stepwise_grows _) h (nil_subset _)).1

theorem LowersCopies.grows {slot : ValueId} {is : List Nat} {body : BlockOf Stmt}
    (h : LowersCopies ctx printSymbol scope span slot is s body s') : s.Grows s' :=
  h.keeps Lowering.Grows.refl (fun _ _ _ => Lowering.Grows.trans) fun _ _ _ _ hbody =>
    (Lowering.Grows.emitted _ _ _).trans (LowersBlock.grows body hbody)

end Growth

section Modules

variable {ctx : Context} {printSymbol : String} {P : Module → Prop}
  {scope scope' : List SymbolId} {s s' : Lowering}

/-- What lowering keeps of a module: it declares the print routine and those of the given calls,
and adds constants. -/
structure Module.Kept (ctx : Context) (printSymbol : String) (P : Module → Prop)
    (calls : List Call) : Prop where
  print : ∀ m, P m → P (m.declared printSymbol Lower.printSignature)
  routine : ∀ m, ∀ call ∈ calls, call.callee.name ≠ printName →
    ctx.function? call.callee.name = none → ∀ params, P m →
    P (m.declared call.callee.name ⟨.void, params, false⟩)
  intern : ∀ m text, P m → P (m.intern text).1

theorem Module.Kept.mono {calls calls' : List Call} (h : Module.Kept ctx printSymbol P calls)
    (hsub : calls' ⊆ calls) : Module.Kept ctx printSymbol P calls' :=
  ⟨h.print, fun m call hcall => h.routine m call (hsub hcall), h.intern⟩

theorem LowersArgs.keeps_module (hP : ∀ m text, P m → P (m.intern text).1)
    (h : LowersArgs ctx scope s es s' args) (hs : P s.module) : P s'.module := by
  induction h with
  | nil => exact hs
  | text _ ih => exact ih (hP _ _ hs)
  | value _ _ ih => exact ih hs

theorem LowersCall.keeps_module (hP : Module.Kept ctx printSymbol P [call])
    (h : LowersCall ctx printSymbol scope s call s') (hs : P s.module) : P s'.module := by
  cases h with
  | printText _ _ | printNumber _ _ _ => exact hP.intern _ _ (hP.print _ hs)
  | function _ _ _ _ | main _ _ _ _ => exact hs
  | routine hname hnone hargs _ =>
    exact hP.routine _ call mem_cons_self hname hnone _ (hargs.keeps_module hP.intern hs)

/-- What declarations and constants keep holds behind a block. -/
theorem LowersBlock.keeps_module (b : BlockOf Stmt)
    (hP : Module.Kept ctx printSymbol P (callsOfBlock b))
    (h : LowersBlock ctx printSymbol scope s b s' scope') (hs : P s.module) : P s'.module := by
  have hsteps : Stepwise ctx printSymbol [] (callsOfBlock b) fun s s' => P s.module → P s'.module :=
    { refl := fun _ => id
      trans := fun h h' hs => h' (h hs)
      withSlot := fun _ _ _ _ _ => id
      computed := fun _ => id
      stored := fun _ _ _ _ _ _ => id
      closed := fun _ _ _ _ => id
      call := fun hc h => h.keeps_module (hP.mono (cons_subset.2 ⟨hc, nil_subset _⟩)) }
  exact (LowersBlock.keeps b hsteps h (nil_subset _)).1 hs

end Modules

namespace Lowering

/-- The state at the start of a function. -/
def start (m : Module) (name : String) : Lowering :=
  { module := m, result := resultType name }

/-- Behind the last block, which is left out if nothing leads to it and it is empty. -/
def finished (s : Lowering) : Lowering :=
  if (s.current = entryBlock ∨ s.blocks.any (s.current ∈ ·.term.targets)) ∨ s.instrs ≠ [] then
    (s.reserved 1).closed (Lower.returnTerm s.result) s.nextBlock
  else
    s

theorem Grows.finished (s : Lowering) : s.Grows s.finished := by
  unfold Lowering.finished
  split
  · exact .closed s 1 _ _
  · exact .refl s

theorem finished_module (s : Lowering) : s.finished.module = s.module := by
  unfold finished
  split
  · rfl
  · rfl

theorem finished_errors (s : Lowering) : s.finished.errors = s.errors := by
  unfold finished
  split
  · rfl
  · rfl

/-- The function that was made. -/
def code (s : Lowering) (f : DeferLang.Function) : Function where
  name := f.name.name
  span := f.span
  result := s.result
  blocks := Lower.withSlots s.slotInstrs.reverse s.blocks.reverse
  entry := entryBlock

end Lowering

/-- The module with a function added. -/
def Module.withFunction (m : Module) (name : String) (f : Function) : Module :=
  { m with functions := insertNamed name f m.functions }

/-- Functions are lowered one after the other, and added to the module. -/
inductive LowersFunctions (ctx : Context) (printSymbol : String) :
    Module → List DeferLang.Function → Module → Prop
  | nil {m : Module} : LowersFunctions ctx printSymbol m [] m
  | cons {m m' : Module} {f : DeferLang.Function} {fs : List DeferLang.Function} {s : Lowering}
      {inner : List SymbolId} :
      f.name.name ≠ printSymbol →
      LowersBlock ctx printSymbol [] (.start m f.name.name) f.body s inner →
      LowersFunctions ctx printSymbol
        (s.module.withFunction f.name.name (s.finished.code f)) fs m' →
      LowersFunctions ctx printSymbol m (f :: fs) m'

section Functions

variable {ctx : Context} {printSymbol : String} {m m' : Module} {fs : List DeferLang.Function}

/-- A function of target code is made from a function of the program, and the module has what it
refers to. -/
def IsCodeOf (ctx : Context) (printSymbol : String) (m : Module) (f : DeferLang.Function)
    (code : Function) : Prop :=
  ∃ before s inner,
    LowersBlock ctx printSymbol [] (.start before f.name.name) f.body s inner ∧
      s.module.Extends m ∧ code = s.finished.code f

theorem Module.extends_withFunction (m : Module) (name : String) (f : Function) :
    m.Extends (m.withFunction name f) :=
  ⟨prefix_refl _, fun _ _ h => h⟩

theorem mem_insertNamed {name : String} {entry : α} {e : String × α}
    {table : List (String × α)} (h : e ∈ insertNamed name entry table) :
    e = (name, entry) ∨ e ∈ table := by
  induction table with
  | nil => exact .inl (mem_singleton.1 h)
  | cons first rest ih =>
    rw [insertNamed] at h
    split at h
    · exact (mem_cons.1 h).imp_right (mem_cons_of_mem _)
    · split at h
      · exact mem_cons.1 h
      · rcases mem_cons.1 h with rfl | hrest
        · exact .inr mem_cons_self
        · exact (ih hrest).imp_right (mem_cons_of_mem _)

theorem LowersFunctions.extends (h : LowersFunctions ctx printSymbol m fs m') : m.Extends m' := by
  induction h with
  | nil => exact .refl _
  | cons _ hbody _ ih =>
    exact ((LowersBlock.grows _ hbody).module.trans (Module.extends_withFunction _ _ _)).trans ih

/-- The calls that functions may perform. -/
def callsOf (fs : List DeferLang.Function) : List Call :=
  fs.flatMap fun f => callsOfBlock f.body

theorem LowersFunctions.keeps_module {P : Module → Prop}
    (hP : Module.Kept ctx printSymbol P (callsOf fs))
    (hfunction : ∀ m name f, P m → P (m.withFunction name f))
    (h : LowersFunctions ctx printSymbol m fs m') (hm : P m) : P m' := by
  induction h with
  | nil => exact hm
  | @cons m m' f fs s inner _ hbody _ ih =>
    have hfirst := LowersBlock.keeps_module f.body (hP.mono (subset_append_left _ _)) hbody
      hm
    exact ih (hP.mono (subset_append_right _ _)) (hfunction _ _ _ hfirst)

theorem LowersFunctions.ne_print (h : LowersFunctions ctx printSymbol m fs m') :
    ∀ f ∈ fs, f.name.name ≠ printSymbol := by
  induction h with
  | nil => exact fun _ hf => by contradiction
  | cons hname _ _ ih => exact forall_mem_cons.2 ⟨hname, ih⟩

/-- All functions of the module are made from those of the program. -/
theorem LowersFunctions.isCodeOf_of_mem (h : LowersFunctions ctx printSymbol m fs m') :
    ∀ e ∈ m'.functions, e ∈ m.functions ∨
      ∃ f ∈ fs, e.1 = f.name.name ∧ IsCodeOf ctx printSymbol m' f e.2 := by
  induction h with
  | nil => exact fun _ he => .inl he
  | @cons m m' f fs s inner _ hbody hrest ih =>
    intro e he
    rcases ih e he with hmem | ⟨f', hf', hcode⟩
    · rcases mem_insertNamed hmem with rfl | hold
      · have hextends := (Module.extends_withFunction _ _ _).trans hrest.extends
        exact .inr ⟨f, mem_cons_self, rfl, m, s, inner, hbody, hextends, rfl⟩
      · rw [(LowersBlock.grows _ hbody).functions] at hold
        exact .inl hold
    · exact .inr ⟨f', mem_cons_of_mem _ hf', hcode⟩

/-- A name that no function has is looked up as before. -/
theorem LowersFunctions.lookup_of_not_mem (h : LowersFunctions ctx printSymbol m fs m')
    {name : String} (hname : name ∉ fs.map (·.name.name)) :
    m'.functions.lookup name = m.functions.lookup name := by
  induction h with
  | nil => rfl
  | @cons m m' f fs s inner _ hbody _ ih =>
    obtain ⟨hne, hrest⟩ := not_or.1 (mt mem_cons.2 hname)
    rw [ih hrest, Module.withFunction, lookup_insertNamed, if_neg hne,
      (LowersBlock.grows _ hbody).functions]
    rfl

/-- Every function of the program has its code in the module. -/
theorem LowersFunctions.lookup (h : LowersFunctions ctx printSymbol m fs m')
    (hnodup : (fs.map (·.name.name)).Nodup) :
    ∀ f ∈ fs, ∃ code, m'.functions.lookup f.name.name = some code ∧
      IsCodeOf ctx printSymbol m' f code := by
  induction h with
  | nil => exact fun _ hf => by contradiction
  | @cons m m' f fs s inner _ hbody hrest ih =>
    obtain ⟨hnew, hnodup⟩ := nodup_cons.1 hnodup
    refine forall_mem_cons.2
      ⟨⟨s.finished.code f, ?_, m, s, inner, hbody, ?_, rfl⟩, ih hnodup⟩
    · rw [hrest.lookup_of_not_mem hnew, Module.withFunction, lookup_insertNamed, if_pos rfl]
    · exact (Module.extends_withFunction _ _ _).trans hrest.extends

end Functions

end Code

end DeferLang
