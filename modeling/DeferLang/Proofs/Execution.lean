import DeferLang.Code.Lower

/-!
# Running programs

What the functions of a checked program do when they run: which routines from outside they
call, in order and with which arguments, and whether they come to an end.  Numbers have 32
bits, and every variable has a place of its own in the store, under the number of its
symbol.

A run may go on forever, so it is given fuel, which bounds the rounds of a `while` loop and
the depth of calls.  What matters is what happens for all amounts of fuel.
-/

namespace DeferLang

/-- What is passed to a routine from outside. -/
inductive Datum where
  | number (n : Int)
  | truth (b : Bool)
  | text (bytes : List UInt8)
deriving DecidableEq

/-- A call of a routine from outside. -/
structure ExternalCall where
  callee : String
  args : List Datum
deriving DecidableEq

/-- How a run ends: behind the last statement or with a return, or without a way to go on. -/
inductive Ending where
  | finished
  | stuck
deriving DecidableEq

/-- What a run did so far, and how it ended, if it did. -/
structure Run where
  calls : List ExternalCall
  ending : Option Ending
deriving DecidableEq

/-- What a run did, with what was done before. -/
def Run.after (calls : List ExternalCall) (r : Run) : Run :=
  ⟨calls ++ r.calls, r.ending⟩

/-- What a variable holds. -/
inductive Value where
  | number (n : Int)
  | truth (b : Bool)
deriving DecidableEq

namespace Value

/-- A value as a number that is printed. -/
def asNumber : Value → Int
  | .number n => n
  | .truth b => if b then 1 else 0

def datum : Value → Datum
  | .number n => .number n
  | .truth b => .truth b

/-- What a variable of a type holds without an initial value. -/
def zero? (type : Ty) : Option Value :=
  match type.deref with
  | .int => some (.number 0)
  | .bool => some (.truth false)
  | _ => none

end Value

/-- The number of 32 bits that is equal to a number up to a multiple of `2 ^ 32`. -/
def wrap32 (n : Int) : Int :=
  n.bmod Int32.size

/-- A division has no result if there is none, or if it does not fit. -/
def canDivide (a b : Int) : Prop :=
  b ≠ 0 ∧ ¬(a = Int32.minValue.toInt ∧ b = -1)

instance (a b : Int) : Decidable (canDivide a b) :=
  inferInstanceAs (Decidable (_ ∧ _))

namespace BinOp

def onNumbers (op : BinOp) (a b : Int) : Option Value :=
  match op with
  | .add => some (.number (wrap32 (a + b)))
  | .sub => some (.number (wrap32 (a - b)))
  | .mul => some (.number (wrap32 (a * b)))
  | .div => if canDivide a b then some (.number (a.tdiv b)) else none
  | .rem => if canDivide a b then some (.number (a.tmod b)) else none
  | .eq => some (.truth (a = b))
  | .ne => some (.truth (a ≠ b))
  | .lt => some (.truth (a < b))
  | .gt => some (.truth (a > b))
  | .le => some (.truth (a ≤ b))
  | .ge => some (.truth (a ≥ b))
  | .and => none

def onTruths (op : BinOp) (a b : Bool) : Option Value :=
  match op with
  | .eq => some (.truth (a = b))
  | .ne => some (.truth (a ≠ b))
  | .and => some (.truth (a && b))
  | _ => none

/-- The result of an operator, if it has one. -/
def apply (op : BinOp) : Value → Value → Option Value
  | .number a, .number b => op.onNumbers a b
  | .truth a, .truth b => op.onTruths a b
  | _, _ => none

end BinOp

/-- What the variables hold. -/
abbrev Store := SymbolId → Option Value

def Store.set (store : Store) (var : SymbolId) (value : Value) : Store :=
  fun symbol => if symbol = var then some value else store symbol

/-- The value of an expression.  Both operands of an operator are evaluated. -/
def eval (ctx : Context) (store : Store) : Expr → Option Value
  | .bool _ _ b => some (.truth b)
  | .int _ _ n => some (.number n)
  | .var id _ => (ctx.resolve? id).bind store
  | .binary _ _ op _ left right =>
    (eval ctx store left).bind fun a => (eval ctx store right).bind fun b => op.apply a b
  | .str _ _ _ => none
  | .field _ _ _ _ => none
  | .range _ _ _ => none

/-- What is passed for an argument.  Texts are passed as their bytes and a closing zero. -/
def argument? (ctx : Context) (store : Store) : Expr → Option Datum
  | .str _ _ text => some (.text (Code.Module.constantBytes text))
  | e => (eval ctx store e).map Value.datum

/-- How many rounds a `for` loop over an expression makes. -/
def rounds? (ctx : Context) (store : Store) : Expr → Option Nat
  | .range _ _ bound =>
    match eval ctx store bound with
    | some (.number n) => some n.toNat
    | _ => none
  | _ => none

/-- How a run goes on behind a statement. -/
inductive Flow where
  | next (store : Store)
  | returned
  | stuck
  | outOfFuel

/-- What a statement does. -/
structure Effect where
  calls : List ExternalCall
  flow : Flow

namespace Effect

/-- Nothing happens. -/
def next (store : Store) : Effect :=
  ⟨[], .next store⟩

def stuck : Effect :=
  ⟨[], .stuck⟩

/-- A routine from outside is called. -/
def perform (call : ExternalCall) (store : Store) : Effect :=
  ⟨[call], .next store⟩

/-- What happens when a run goes on, if it does. -/
def andThen (e : Effect) (k : Store → Effect) : Effect :=
  match e.flow with
  | .next store => ⟨e.calls ++ (k store).calls, (k store).flow⟩
  | _ => e

theorem andThen_next (e : Effect) : e.andThen next = e := by
  unfold andThen
  split
  · rename_i store hflow
    rw [next, List.append_nil, ← hflow]
  · rfl

/-- What happens with a value, if there is one. -/
def withValue {α : Type} (a : Option α) (k : α → Effect) : Effect :=
  match a with
  | some a => k a
  | none => stuck

/-- What happens under a condition. -/
def branch (yes no : Effect) : Value → Effect
  | .truth true => yes
  | .truth false => no
  | .number _ => stuck

/-- The run of a function with this effect. -/
def run (e : Effect) : Run where
  calls := e.calls
  ending :=
    match e.flow with
    | .next _ => some .finished
    | .returned => some .finished
    | .stuck => some .stuck
    | .outOfFuel => none

end Effect

/-- What a call of a function does. -/
def Run.effect (r : Run) (store : Store) : Effect where
  calls := r.calls
  flow :=
    match r.ending with
    | some .finished => .next store
    | some .stuck => .stuck
    | none => .outOfFuel

/-- What statements are run with. -/
structure Env where
  ctx : Context
  /-- The routine that `print` calls. -/
  printSymbol : String
  /-- What a call of a function does. -/
  call : String → Run
  fuel : Nat

/-- Printing passes a format, and a number unless it is a text that is printed. -/
def execPrint (env : Env) (args : List Expr) (store : Store) : Effect :=
  match args with
  | [.str _ _ text] =>
    .perform ⟨env.printSymbol, [.text (Code.Module.constantBytes (Code.Lower.printFormat text))]⟩
      store
  | [arg] =>
    .withValue (eval env.ctx store arg) fun v =>
      .perform ⟨env.printSymbol, [.text (Code.Module.constantBytes "%d\n"), .number v.asNumber]⟩
        store
  | _ => .stuck

def execCall (env : Env) (c : Call) (store : Store) : Effect :=
  if c.callee.name = printName then execPrint env c.args store
  else if (env.ctx.function? c.callee.name).isSome then (env.call c.callee.name).effect store
  else
    .withValue (c.args.mapM (argument? env.ctx store)) fun args =>
      .perform ⟨c.callee.name, args⟩ store

def execDecl (env : Env) (d : VarDecl) (store : Store) : Effect :=
  .withValue (env.ctx.declSymbol? d.id) fun var =>
    let value :=
      match d.init with
      | some init => eval env.ctx store init
      | none => (env.ctx.symbols.get? var).bind fun symbol => Value.zero? symbol.type
    .withValue value fun v => .next (store.set var v)

def execAssign (env : Env) (target value : Expr) (store : Store) : Effect :=
  match target with
  | .var id _ =>
    .withValue (env.ctx.resolve? id) fun var =>
      .withValue (eval env.ctx store value) fun v => .next (store.set var v)
  | _ => .stuck

/-- A loop runs its body as long as its condition holds. -/
def execWhile (cond : Store → Option Value) (body : Store → Effect) : Nat → Store → Effect
  | 0, _ => ⟨[], .outOfFuel⟩
  | n + 1, store =>
    .withValue (cond store)
      (.branch ((body store).andThen (execWhile cond body n)) (.next store))

/-- A loop runs its body once for each value of its variable. -/
def execFor (var : SymbolId) (body : Store → Effect) : List Nat → Store → Effect
  | [], store => .next store
  | i :: is, store => (body (store.set var (.number i))).andThen (execFor var body is)

mutual

/-- Run a statement.  A `defer` does nothing; the cleanup that is scheduled for it does. -/
def execStmt (env : Env) : Stmt → Store → Effect
  | .varDecl d, store => execDecl env d store
  | .assign _ target value, store => execAssign env target value store
  | .call _ c, store => execCall env c store
  | .block body, store => execBlock env body store
  | .ifElse _ cond thenBody none, store =>
    .withValue (eval env.ctx store cond) (.branch (execBlock env thenBody store) (.next store))
  | .ifElse _ cond thenBody (some elseBody), store =>
    .withValue (eval env.ctx store cond)
      (.branch (execBlock env thenBody store) (execBlock env elseBody store))
  | .whileLoop _ cond body, store =>
    execWhile (fun store => eval env.ctx store cond) (execBlock env body) env.fuel store
  | .forIn id _ _ iter body, store =>
    .withValue (env.ctx.declSymbol? id) fun var =>
      .withValue (rounds? env.ctx store iter) fun n =>
        execFor var (execBlock env body) (List.range n) store
  | .ret _ _, _ => ⟨[], .returned⟩
  | .defer _ _, store => .next store
  | .cleanup item, store =>
    match item.action with
    | .deferred c => execCall env c store
    | .destructor => .next store
    | .releasedBy _ => .next store

def execBlock (env : Env) : BlockOf Stmt → Store → Effect
  | ⟨_, _, body⟩, store => execStmts env body store

def execStmts (env : Env) : List Stmt → Store → Effect
  | [], store => .next store
  | s :: ss, store => (execStmt env s store).andThen (execStmts env ss)

end

/-- Run a function of a program by its name. -/
def Program.run (p : Program) (ctx : Context) (printSymbol : String) : Nat → String → Run
  | 0, _ => ⟨[], none⟩
  | n + 1, name =>
    match p.functions.find? (·.name.name = name) with
    | none => ⟨[], some .stuck⟩
    | some f =>
      (execBlock ⟨ctx, printSymbol, p.run ctx printSymbol n, n + 1⟩ f.body fun _ => none).run

end DeferLang
