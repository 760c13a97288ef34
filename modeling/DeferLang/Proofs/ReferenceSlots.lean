import DeferLang.Proofs.MeaningPreserved

/-!
# References are variables of their own

Checking reads a reference as what it refers to, but target code knows variables only:
a reference gets a slot of its own, which is filled from the variable that it is bound
to.  What is stored through one of the two is not seen by the other.

The loads and stores of a function are, in order, the uses of variables in its body
(`Code.Lowering.Uses`), each at a slot that belongs to its variable alone; and a slot
keeps what it holds until the function stores something there (`Code.Activation.held_eq`).
-/

namespace DeferLang

open List

/-- A place that is read or written. -/
structure Use (α : Type) where
  writes : Bool
  place : α
deriving DecidableEq

def Use.map {α β : Type} (f : α → β) (u : Use α) : Use β :=
  ⟨u.writes, f u.place⟩

/-- A use of a variable, if its name has a symbol. -/
abbrev VarUse := Use (Option SymbolId)

/-- How often the body of a loop over an expression is lowered. -/
def Expr.copies : Expr → Nat
  | .range _ _ (.int _ _ count) => count
  | _ => 0

/-- The variable that a declaration binds a reference to. -/
def VarDecl.referent? (d : VarDecl) : Option NodeId :=
  match d.init with
  | some (.var id _) => if .reference ∈ d.type.modifiers then some id else none
  | _ => none

section Uses

variable (ctx : Context)

def readsOf (vars : List (NodeId × Ident)) : List VarUse :=
  vars.map fun v => ⟨false, ctx.resolve? v.1⟩

theorem readsOf_append (vars vars' : List (NodeId × Ident)) :
    readsOf ctx (vars ++ vars') = readsOf ctx vars ++ readsOf ctx vars' :=
  map_append

mutual

/-- The uses of variables in a statement, in the order in which code is made for them. -/
def Stmt.uses : Stmt → List VarUse
  | .varDecl d => readsOf ctx (Check.initVars d.init) ++ [⟨true, ctx.declSymbol? d.id⟩]
  | .assign _ left value =>
    readsOf ctx value.vars ++ left.vars.map fun v => ⟨true, ctx.resolve? v.1⟩
  | .call _ c => readsOf ctx c.vars
  | .block body => usesOfBlock body
  | .ifElse _ cond thenBody none => readsOf ctx cond.vars ++ usesOfBlock thenBody
  | .ifElse _ cond thenBody (some elseBody) =>
    readsOf ctx cond.vars ++ (usesOfBlock thenBody ++ usesOfBlock elseBody)
  | .whileLoop _ cond body => readsOf ctx cond.vars ++ usesOfBlock body
  | .forIn id _ _ iter body =>
    (List.replicate iter.copies (⟨true, ctx.declSymbol? id⟩ :: usesOfBlock body)).flatten
  | .ret _ _ => []
  | .defer _ _ => []
  | .cleanup item =>
    match item.action with
    | .deferred c => readsOf ctx c.vars
    | .destructor => []
    | .releasedBy _ => []

def usesOfBlock : BlockOf Stmt → List VarUse
  | ⟨_, _, body⟩ => usesOfStmts body

def usesOfStmts : List Stmt → List VarUse
  | [] => []
  | s :: ss => s.uses ++ usesOfStmts ss

end

mutual

/-- The references that code is made for in a statement, each with the variable that it is bound
to. -/
def Stmt.references : Stmt → List (Option SymbolId × Option SymbolId)
  | .varDecl d => d.referent?.toList.map fun id => (ctx.declSymbol? d.id, ctx.resolve? id)
  | .block body => referencesOfBlock body
  | .ifElse _ _ thenBody none => referencesOfBlock thenBody
  | .ifElse _ _ thenBody (some elseBody) =>
    referencesOfBlock thenBody ++ referencesOfBlock elseBody
  | .whileLoop _ _ body => referencesOfBlock body
  | .forIn _ _ _ iter body => (List.replicate iter.copies (referencesOfBlock body)).flatten
  | .assign _ _ _ => []
  | .call _ _ => []
  | .ret _ _ => []
  | .defer _ _ => []
  | .cleanup _ => []

def referencesOfBlock : BlockOf Stmt → List (Option SymbolId × Option SymbolId)
  | ⟨_, _, body⟩ => referencesOfStmts body

def referencesOfStmts : List Stmt → List (Option SymbolId × Option SymbolId)
  | [] => []
  | s :: ss => s.references ++ referencesOfStmts ss

end

end Uses

namespace Code

/-- The slot that an instruction loads from or stores to. -/
def Instr.use? (i : Instr) : Option (Use ValueId) :=
  match i.operation with
  | .load _ slot => some ⟨false, slot⟩
  | .store _ _ slot => some ⟨true, slot⟩
  | _ => none

/-- The loads and stores of a function, block by block. -/
def Function.uses (f : Function) : List (Use ValueId) :=
  f.instrs.filterMap Instr.use?

section Lowered

/-- Slots belong to the variables that they were made for. -/
def Owns (owner : ValueId → Option SymbolId) (slots : Slots) : Prop :=
  ∀ entry ∈ slots, owner entry.2.1 = some entry.1

theorem Lowering.SlotsApart.exists_owner {s : Lowering} (h : s.SlotsApart) :
    ∃ owner, Owns owner s.slots := by
  -- no slot is made twice, so the first entry for a slot is the only one
  refine ⟨fun slot => (s.slots.find? (·.2.1 = slot)).map Prod.fst, fun entry hentry => ?_⟩
  have hfind := find?_key (fun e : SymbolId × ValueId × ValueType => e.2.1) h.nodup hentry
  exact congrArg (Option.map Prod.fst) hfind

variable {ctx : Context} {printSymbol : String} {owner : ValueId → Option SymbolId}

/-- The variables that instructions use. -/
def usesIn (owner : ValueId → Option SymbolId) (code : List Instr) : List VarUse :=
  (code.filterMap Instr.use?).map (Use.map owner)

theorem usesIn_append (code code' : List Instr) :
    usesIn owner (code ++ code') = usesIn owner code ++ usesIn owner code' := by
  rw [usesIn, filterMap_append, map_append]
  rfl

/-- The uses in the code that was made so far. -/
def Lowering.uses (owner : ValueId → Option SymbolId) (s : Lowering) : List VarUse :=
  usesIn owner (s.blocks.reverse.flatMap BasicBlock.instrs ++ s.instrs.reverse)

/-- From one state to the other, code was made for uses of variables.  Every reference that was
bound is another variable than the one it is bound to. -/
structure Lowering.Uses (owner : ValueId → Option SymbolId) (s s' : Lowering) (uses : List VarUse)
    (bound : List (Option SymbolId × Option SymbolId)) : Prop where
  slots : s.slots <:+ s'.slots
  uses_eq : Owns owner s'.slots → s'.uses owner = s.uses owner ++ uses
  apart : ∀ pair ∈ bound, ∃ r v, pair = (some r, some v) ∧ r ≠ v

namespace Lowering.Uses

variable {s s' s'' : Lowering} {uses uses' : List VarUse}
  {bound bound' : List (Option SymbolId × Option SymbolId)}

theorem trans (h : Uses owner s s' uses bound) (h' : Uses owner s' s'' uses' bound') :
    Uses owner s s'' (uses ++ uses') (bound ++ bound') := by
  refine ⟨h.slots.trans h'.slots, fun howns => ?_, forall_mem_append.2 ⟨h.apart, h'.apart⟩⟩
  have hmid : Owns owner s'.slots := fun entry hentry => howns entry (h'.slots.subset hentry)
  rw [h'.uses_eq howns, h.uses_eq hmid, append_assoc]

/-- A change of the state without loads and stores. -/
theorem silent (huses : s'.uses owner = s.uses owner) (hslots : s.slots <:+ s'.slots) :
    Uses owner s s' [] [] :=
  ⟨hslots, fun _ => huses.trans (append_nil _).symm, fun _ hpair => by contradiction⟩

theorem refl (s : Lowering) : Uses owner s s [] [] :=
  .silent rfl (suffix_refl _)

theorem withSlot (s : Lowering) (var : SymbolId) (type : ValueType) (span : Span) :
    Uses owner s (s.withSlot var type span) [] [] :=
  .silent rfl (suffix_cons _ _)

theorem inModule (s : Lowering) (m : Module) : Uses owner s (s.inModule m) [] [] :=
  .silent rfl (suffix_refl _)

/-- The block that is filled may be closed. -/
theorem closed (h : Uses owner s s' uses bound) (term : Terminator) (next : BlockId) :
    Uses owner s (s'.closed term next) uses bound := by
  refine ⟨h.slots, fun howns => Eq.trans ?_ (h.uses_eq howns), h.apart⟩
  simp [Lowering.uses, Lowering.closed]

/-- Numbers of blocks may be taken. -/
theorem reserved (h : Uses owner s s' uses bound) (count : Nat) :
    Uses owner s (s'.reserved count) uses bound :=
  ⟨h.slots, h.uses_eq, h.apart⟩

/-- Instructions are added to the open block. -/
theorem of_code (code : List Instr) (hblocks : s'.blocks = s.blocks)
    (hinstrs : s'.instrs = code.reverse ++ s.instrs) (hslots : s'.slots = s.slots)
    (huses : Owns owner s.slots → usesIn owner code = uses) : Uses owner s s' uses [] := by
  refine ⟨hslots ▸ suffix_refl _, fun howns => ?_, fun _ hpair => by contradiction⟩
  rw [Lowering.uses, hblocks, hinstrs, reverse_append, reverse_reverse,
    ← append_assoc, usesIn_append, huses (hslots ▸ howns)]
  rfl

theorem store {symbol : SymbolId} {slot : ValueId} {type : ValueType}
    (hmem : (symbol, slot, type) ∈ s.slots) (span : Span) (x : Operand) :
    Uses owner s (s.emitted span (.store type x slot)) [⟨true, some symbol⟩] [] := by
  refine of_code [⟨span, none, .store type x slot⟩] rfl rfl rfl fun howns => ?_
  have howner : owner slot = some symbol := howns _ hmem
  rw [← howner]
  rfl

end Lowering.Uses

variable {scope : List SymbolId} {s s' : Lowering} {first : ValueId} {code : List Instr}
  {x : Operand} {type : ValueType}

/-- The code of an expression loads its variables. -/
theorem Computes.uses_eq {slots : Slots} {e : Expr}
    (h : Computes ctx scope slots first e code x type) (howns : Owns owner slots) :
    usesIn owner code = readsOf ctx e.vars := by
  induction h with
  | int _ | bool => rfl
  | @var first slot id name symbol type hresolve _ hslot =>
    have howner : owner slot = some symbol := howns _ (mem_of_lookup hslot)
    change [(⟨false, owner slot⟩ : VarUse)] = [⟨false, ctx.resolve? id⟩]
    rw [howner, hresolve]
  | binary _ _ _ hleft hright =>
    rw [usesIn_append, usesIn_append, hleft, hright, Expr.vars, readsOf_append]
    exact congrArg _ (append_nil _)

theorem Lowering.Uses.computed {e : Expr} (h : Computes ctx scope s.slots first e code x type) :
    Uses owner s (s.computed code) (readsOf ctx e.vars) [] :=
  .of_code code rfl rfl rfl h.uses_eq

theorem LowersArgs.uses {es : List Expr} {args : CallArgs} (h : LowersArgs ctx scope s es s' args) :
    s.Uses owner s' (readsOf ctx (es.flatMap Expr.vars)) [] := by
  induction h with
  | nil => exact .refl _
  | text _ ih => exact (Lowering.Uses.inModule _ _).trans ih
  | value harg _ ih =>
    rw [flatMap_cons, readsOf_append]
    exact (Lowering.Uses.computed harg).trans ih

/-- A call loads the variables in its arguments. -/
theorem LowersCall.uses {c : Call} (h : LowersCall ctx printSymbol scope s c s') :
    s.Uses owner s' (readsOf ctx c.vars) [] := by
  -- behind the arguments stands the call itself
  have hcall {s₁ : Lowering} {uses : List VarUse} (hargs : s.Uses owner s₁ uses []) (m : Module)
      (callee : String) (result : ValueType) (args : CallArgs) :
      s.Uses owner ((s₁.inModule m).emitted c.span (.call callee result args)) uses [] := by
    have hend : (s₁.inModule m).Uses owner
        ((s₁.inModule m).emitted c.span (.call callee result args)) [] [] :=
      .of_code [⟨c.span, none, .call callee result args⟩] rfl rfl rfl fun _ => rfl
    rw [← append_nil uses]
    exact hargs.trans ((Lowering.Uses.inModule s₁ m).trans hend)
  rw [Call.vars]
  cases h with
  | printText _ hargs =>
    rw [hargs]
    exact hcall (.refl s) _ _ _ _
  | printNumber _ hargs hprints =>
    rw [hargs, flatMap_singleton]
    refine hcall ?_ _ _ _ _
    cases hprints with
    | number hcode => exact .computed hcode
    | truth hcode =>
      refine .of_code _ rfl rfl rfl fun howns => ?_
      rw [usesIn_append, hcode.uses_eq howns]
      exact append_nil _
  | function _ _ hargs _ =>
    rw [hargs]
    exact hcall (.refl s) s.module _ _ _
  | main _ _ hargs _ =>
    rw [hargs]
    exact .of_code _ rfl rfl rfl fun _ => rfl
  | routine _ _ hargs _ => exact hcall hargs.uses _ _ _ _

/-- What one copy of a loop body uses, every copy does. -/
theorem LowersCopies.uses {body : BlockOf Stmt} {span : Span} {slot : ValueId}
    {uses : List VarUse} {bound : List (Option SymbolId × Option SymbolId)} {slots : Slots}
    (hround : ∀ (s : Lowering) i s₁ inner, slots <:+ s.slots → LowersBlock ctx printSymbol scope
      (s.emitted span (.store .i32 (.const32 (Int32.ofNat i)) slot)) body s₁ inner →
        s.Uses owner s₁ uses bound) {is : List Nat} {s s' : Lowering} (hslots : slots <:+ s.slots)
    (h : LowersCopies ctx printSymbol scope span slot is s body s') :
    s.Uses owner s' (List.replicate is.length uses).flatten
      (List.replicate is.length bound).flatten := by
  induction is generalizing s with
  | nil =>
    cases h
    exact .refl _
  | cons i is ih =>
    cases h with
    | cons hbody hrest =>
      have hfirst := hround _ _ _ _ hslots hbody
      exact hfirst.trans (ih (hslots.trans hfirst.slots) hrest)

/-- A reference is declared outside of the scope that its variable is in. -/
theorem Computes.apart {slots : Slots} {d : VarDecl} {init : Expr} {symbol : SymbolId}
    (h : Computes ctx scope slots first init code x type) (hinit : d.init = some init)
    (hsymbol : ctx.declSymbol? d.id = some symbol) (hnew : symbol ∉ scope) :
    ∀ pair ∈ Stmt.references ctx (.varDecl d), ∃ r v, pair = (some r, some v) ∧ r ≠ v := by
  intro pair hpair
  rw [Stmt.references, VarDecl.referent?, hinit] at hpair
  cases h with
  | @var _ _ id name v _ hresolve hscope _ =>
    refine ⟨symbol, v, ?_, fun heq => hnew (heq ▸ hscope)⟩
    obtain ⟨found, hfound, rfl⟩ := mem_map.1 hpair
    dsimp only at hfound
    split at hfound
    · obtain rfl := mem_singleton.1 hfound
      rw [hsymbol, hresolve]
    · contradiction
  | _ => contradiction

mutual

/-- The code of a statement loads and stores what the statement uses. -/
theorem LowersStmt.uses (st : Stmt) {scope scope' : List SymbolId} {s s' : Lowering}
    (h : LowersStmt ctx printSymbol scope s st s' scope') :
    s.Uses owner s' (st.uses ctx) (st.references ctx) := by
  match st, h with
  | .varDecl d, @LowersStmt.declareZero _ _ _ _ _ symbol _ t hinit hsymbol _ _ _ =>
    have hslot : s.Uses owner (s.withSlot symbol t d.span) [] [] := .withSlot _ _ _ _
    rw [Stmt.uses, Stmt.references, VarDecl.referent?, hinit, hsymbol]
    exact hslot.trans (.store mem_cons_self d.span (zero t))
  | .varDecl d,
      @LowersStmt.declareInit _ _ _ _ _ _ symbol _ t code x hinit hsymbol hnew _ _ hcode =>
    have hslot : s.Uses owner (s.withSlot symbol t d.span) [] [] := .withSlot _ _ _ _
    have hstore : ((s.withSlot symbol t d.span).computed code).Uses owner _ _ [] :=
      .store mem_cons_self d.span x
    have hall := hslot.trans ((Lowering.Uses.computed hcode).trans hstore)
    refine ⟨hall.slots, ?_, hcode.apart hinit hsymbol hnew⟩
    rw [Stmt.uses, hinit, hsymbol, Check.initVars, Option.toList_some, flatMap_singleton]
    exact hall.uses_eq
  | .assign span (.var id name) value, .assign hresolve _ hslot hcode =>
    rw [Stmt.uses, Stmt.references, Expr.vars, map_singleton, hresolve]
    exact (Lowering.Uses.computed hcode).trans
      (.store (s := s.computed _) (mem_of_lookup hslot) span _)
  | .call _ _, .call hcall => exact hcall.uses
  | .block body, .block hbody => exact LowersBlock.uses body hbody
  | .ifElse _ _ thenBody none, .ifThen hcode hthen =>
    exact (((Lowering.Uses.computed hcode).reserved 2).closed _ _).trans
      ((LowersBlock.uses thenBody hthen).closed _ _)
  | .ifElse _ _ thenBody (some elseBody), .ifElse hcode hthen helse =>
    have hboth := ((LowersBlock.uses thenBody hthen).closed _ _).trans
      (LowersBlock.uses elseBody helse)
    exact (((Lowering.Uses.computed hcode).reserved 3).closed _ _).trans (hboth.closed _ _)
  | .whileLoop _ _ body, .whileLoop hcode hbody =>
    have hbefore : s.Uses owner ((s.reserved 3).closed (.jump s.nextBlock) s.nextBlock) [] [] :=
      ((Lowering.Uses.refl s).reserved 3).closed _ _
    exact ((hbefore.trans (.computed hcode)).closed _ _).trans
      ((LowersBlock.uses body hbody).closed _ _)
  | .forIn id span var _ body,
      @LowersStmt.forIn _ _ _ _ _ _ _ _ _ _ _ _ _ count symbol _ hsymbol _ _ hcopies =>
      rw [Stmt.uses, Stmt.references, hsymbol, Expr.copies]
      have hslot : s.Uses owner (s.withSlot symbol .i32 var.span) [] [] := .withSlot _ _ _ _
      -- the counter has one slot for all copies, and each copy starts with a store to it
      have hround (s₀ : Lowering) (i : Nat) (s₁ : Lowering) (inner : List SymbolId)
          (hslots : (s.withSlot symbol .i32 var.span).slots <:+ s₀.slots)
          (hbody : LowersBlock ctx printSymbol (symbol :: scope)
            (s₀.emitted span (.store .i32 (.const32 (Int32.ofNat i)) s.nextValue)) body s₁ inner) :
          s₀.Uses owner s₁ (⟨true, some symbol⟩ :: usesOfBlock ctx body)
            (referencesOfBlock ctx body) :=
        (Lowering.Uses.store (hslots.subset mem_cons_self) span _).trans
          (LowersBlock.uses body hbody)
      have hall := hcopies.uses hround (suffix_refl _)
      rw [length_range] at hall
      exact hslot.trans hall
  | .ret _ _, .ret => exact ((Lowering.Uses.refl s).reserved 1).closed _ _
  | .defer _ _, .defer => exact .refl s
  | .cleanup item, .deferred haction hcall =>
    rw [Stmt.uses, haction]
    exact hcall.uses
  | .cleanup item, .cleanup haction =>
    have hnone : Stmt.uses ctx (.cleanup item) = [] := by
      rw [Stmt.uses]
      split
      · rename_i c hdeferred
        exact absurd hdeferred (haction c)
      · rfl
      · rfl
    rw [hnone]
    exact .refl s
termination_by structural st

theorem LowersBlock.uses (b : BlockOf Stmt) {scope scope' : List SymbolId} {s s' : Lowering}
    (h : LowersBlock ctx printSymbol scope s b s' scope') :
    s.Uses owner s' (usesOfBlock ctx b) (referencesOfBlock ctx b) := by
  match b, h with
  | ⟨_, _, stmts⟩, .mk hstmts => exact LowersStmts.uses stmts hstmts
termination_by structural b

theorem LowersStmts.uses (ss : List Stmt) {scope scope' : List SymbolId} {s s' : Lowering}
    (h : LowersStmts ctx printSymbol scope s ss s' scope') :
    s.Uses owner s' (usesOfStmts ctx ss) (referencesOfStmts ctx ss) := by
  match ss, h with
  | [], .nil => exact .refl s
  | st :: ss, .cons hst hss => exact (LowersStmt.uses st hst).trans (LowersStmts.uses ss hss)
termination_by structural ss

end

/-- Slots are no uses, so that they may stand in front of the first block. -/
theorem filterMap_use?_withSlots {slots : List Instr} (hslots : slots.filterMap Instr.use? = [])
    (blocks : List BasicBlock) :
    ((Lower.withSlots slots blocks).flatMap BasicBlock.instrs).filterMap Instr.use? =
      (blocks.flatMap BasicBlock.instrs).filterMap Instr.use? := by
  induction blocks with
  | nil => rfl
  | cons b blocks ih =>
    rw [Lower.withSlots]
    split
    · simp only [flatMap_cons, filterMap_append, hslots, nil_append]
    · rw [flatMap_cons, flatMap_cons, filterMap_append, filterMap_append, ih]

/-- A function has the uses in the code that was made for it. -/
theorem Lowering.uses_code (s : Lowering) (f : DeferLang.Function)
    (hslots : s.finished.slotInstrs.reverse.filterMap Instr.use? = []) :
    (s.finished.code f).uses.map (Use.map owner) = s.uses owner := by
  have hblocks : (s.finished.code f).uses =
      (s.finished.blocks.reverse.flatMap BasicBlock.instrs).filterMap Instr.use? :=
    filterMap_use?_withSlots hslots _
  rw [hblocks, Lowering.uses, usesIn]
  -- an open block is closed by a return, or dropped if nothing leads to it
  unfold finished
  split
  · simp [Lowering.closed, Lowering.reserved]
  · rename_i hdropped
    rw [not_or, not_not] at hdropped
    rw [hdropped.2, reverse_nil, append_nil]

/-- The uses of a function are those in its body, and there is one variable for each slot. -/
theorem IsCodeOf.uses {m : Module} {f : DeferLang.Function} {code : Function}
    (h : IsCodeOf ctx printSymbol m f code) :
    (∃ owner, code.uses.map (Use.map owner) = usesOfBlock ctx f.body) ∧
      ∀ pair ∈ referencesOfBlock ctx f.body, ∃ r v, pair = (some r, some v) ∧ r ≠ v := by
  obtain ⟨before, s, inner, hbody, -, rfl⟩ := h
  have hfits := LowersBlock.fits f.body hbody (Lowering.fits_start before f.name.name)
  have hapart : s.SlotsApart := (LowersBlock.grows f.body hbody).slotsApart
    ⟨nodup_nil, fun _ hid => by contradiction⟩
  obtain ⟨owner, howns⟩ := hapart.exists_owner
  have huses : (Lowering.start before f.name.name).Uses owner s _ _ :=
    LowersBlock.uses f.body hbody
  have hslots : s.finished.slotInstrs.reverse.filterMap Instr.use? = [] := by
    refine filterMap_eq_nil_iff.2 fun i hi => ?_
    rw [s.slotInstrs_finished, mem_reverse] at hi
    obtain ⟨id, type, hslot⟩ := hfits.slotInstrs i hi
    rw [Instr.use?, (Instr.slot?_eq_some.1 hslot).2]
  exact ⟨⟨owner, (s.uses_code f hslots).trans (huses.uses_eq howns)⟩, huses.apart⟩

end Lowered

section Machine

/-- The slot that an instruction makes or stores to. -/
def Instr.fills? (i : Instr) : Option ValueId :=
  match i.operation with
  | .slot _ => i.dest
  | .store _ _ slot => some slot
  | _ => none

/-- What a slot holds in the function at a depth: the one that runs, or one that waits. -/
def heldIn (slot : ValueId) (depth : Nat) : Frame → Callers → Option Cell
  | F, [] => F.cells slot
  | F, (_, waiting) :: rest =>
    if rest.length < depth then F.cells slot else heldIn slot depth waiting rest

def Config.held (c : Config) (depth : Nat) (slot : ValueId) : Option Cell :=
  heldIn slot depth c.frame c.callers

variable {slot : ValueId} {depth : Nat} {F F' : Frame} {callers : Callers}

/-- Of the function that runs only the slots count. -/
theorem heldIn_congr (h : callers.length ≤ depth → F'.cells slot = F.cells slot) :
    heldIn slot depth F' callers = heldIn slot depth F callers := by
  cases callers with
  | nil => exact h (Nat.zero_le _)
  | cons caller rest =>
    rw [heldIn, heldIn]
    split
    · exact h ‹_›
    · rfl

/-- A function that waits is not the one that was called last. -/
theorem heldIn_cons (h : depth ≤ callers.length) (dest : Option ValueId) :
    heldIn slot depth F ((dest, F') :: callers) = heldIn slot depth F' callers :=
  if_neg (Nat.not_lt.2 h)

theorem Frame.cells_after? {i : Instr} (h : F.after? i.dest i.operation = some F')
    (hslot : i.fills? ≠ some slot) : F'.cells slot = F.cells slot := by
  obtain ⟨span, dest, operation⟩ := i
  cases operation with
  | slot type =>
    obtain ⟨id, rfl, rfl⟩ := Option.map_eq_some_iff.1 h
    exact if_neg fun heq => hslot (congrArg some heq.symm)
  | load type slot =>
    obtain ⟨id, -, h⟩ := Option.bind_eq_some_iff.1 h
    obtain ⟨w, -, rfl⟩ := Option.map_eq_some_iff.1 h
    rfl
  | store type x target =>
    obtain ⟨w, -, h⟩ := Option.bind_eq_some_iff.1 h
    obtain ⟨cell, -, h⟩ := Option.bind_eq_some_iff.1 h
    split at h
    · obtain rfl := Option.some.inj h
      exact if_neg fun heq => hslot (congrArg some heq.symm)
    · contradiction
  | binary op type left right =>
    obtain ⟨id, -, h⟩ := Option.bind_eq_some_iff.1 h
    obtain ⟨a, -, h⟩ := Option.bind_eq_some_iff.1 h
    obtain ⟨b, -, h⟩ := Option.bind_eq_some_iff.1 h
    obtain ⟨w, -, rfl⟩ := Option.map_eq_some_iff.1 h
    rfl
  | widen x =>
    obtain ⟨id, -, h⟩ := Option.bind_eq_some_iff.1 h
    obtain ⟨w, -, h⟩ := Option.bind_eq_some_iff.1 h
    split at h
    · obtain rfl := Option.some.inj h
      rfl
    · contradiction
  | call callee result args => contradiction

theorem Next.ofFrame?_eq_running {next : Option Frame} {calls : List ExternalCall} {c : Config}
    (h : Next.ofFrame? callers next = .running calls c) :
    ∃ F, next = some F ∧ c = ⟨F, callers⟩ := by
  cases next with
  | none => contradiction
  | some F =>
    cases h
    exact ⟨F, rfl, rfl⟩

variable {m : Module} {c c' : Config} {calls : List ExternalCall}

/-- A function that waits gets its result, and keeps its slots. -/
theorem held_returnTo {result : Option Word}
    (h : returnTo callers result = .running calls c') (hdepth : depth ≤ c'.callers.length)
    (F : Frame) : c'.held depth slot = heldIn slot depth F callers := by
  cases callers with
  | nil => contradiction
  | cons caller rest =>
    obtain ⟨dest, waiting⟩ := caller
    obtain ⟨F', hreceive, rfl⟩ := Next.ofFrame?_eq_running h
    rw [heldIn_cons hdepth]
    refine heldIn_congr fun _ => ?_
    unfold Frame.receive? at hreceive
    split at hreceive
    · cases hreceive
      rfl
    · cases hreceive
      rfl
    · contradiction

/-- A jump keeps the slots. -/
theorem held_jump {target : BlockId}
    (h : Next.ofFrame? callers (F.jump? target) = .running calls c') :
    c'.held depth slot = heldIn slot depth F callers := by
  obtain ⟨F', hjump, rfl⟩ := Next.ofFrame?_eq_running h
  obtain ⟨b, -, rfl⟩ := Option.map_eq_some_iff.1 hjump
  exact heldIn_congr fun _ => rfl

theorem held_leave (h : F.leave callers = .running calls c') (hdepth : depth ≤ c'.callers.length) :
    c'.held depth slot = heldIn slot depth F callers := by
  unfold Frame.leave at h
  split at h
  · exact held_returnTo h hdepth F
  · split at h
    · exact held_returnTo h hdepth F
    · contradiction
  · exact held_jump h
  · split at h
    · exact held_jump h
    · contradiction

/-- A call keeps the slots of the function that makes it. -/
theorem held_call {dest : Option ValueId} {callee : String} {result : ValueType}
    {args : CallArgs} (h : m.call F callers dest callee result args = .running calls c')
    (hdepth : depth ≤ callers.length) : c'.held depth slot = heldIn slot depth F callers := by
  unfold Module.call at h
  split at h
  · split at h
    · obtain ⟨G, -, rfl⟩ := Next.ofFrame?_eq_running h
      exact heldIn_cons hdepth dest
    · contradiction
  · unfold Module.callRoutine at h
    split at h
    · cases h
      rfl
    · contradiction

/-- A step changes what a slot holds only if the function at the depth fills it. -/
theorem held_step (h : m.step c = .running calls c') (hdepth : depth ≤ c.callers.length)
    (hdepth' : depth ≤ c'.callers.length)
    (hfree : c.callers.length = depth → ∀ i ∈ c.frame.code.head?, i.fills? ≠ some slot) :
    c'.held depth slot = c.held depth slot := by
  obtain ⟨F, callers⟩ := c
  unfold Module.step at h
  dsimp only at h hdepth hfree
  split at h
  · rename_i i rest hcode
    have hcells : heldIn slot depth { F with code := rest } callers = heldIn slot depth F callers :=
      heldIn_congr fun _ => rfl
    unfold Module.perform at h
    split at h
    · -- a call changes which function runs, but no slot
      exact (held_call h hdepth).trans hcells
    · obtain ⟨F', hafter, rfl⟩ := Next.ofFrame?_eq_running h
      refine Eq.trans (heldIn_congr fun hle => ?_) hcells
      refine Frame.cells_after? hafter (hfree (Nat.le_antisymm hle hdepth) i ?_)
      rw [hcode]
      rfl
  · exact held_leave h hdepth'

/-- Steps of the machine while the function at a depth has not returned.  What it executes itself
satisfies `ok`. -/
inductive Activation (m : Module) (depth : Nat) (ok : Instr → Prop) : Config → Config → Prop
  | refl {c : Config} : depth ≤ c.callers.length → Activation m depth ok c c
  | step {c c₁ c' : Config} {calls : List ExternalCall} :
      m.step c = .running calls c₁ → depth ≤ c.callers.length →
      (c.callers.length = depth → ∀ i ∈ c.frame.code.head?, ok i) →
      Activation m depth ok c₁ c' → Activation m depth ok c c'

/-- A slot keeps what it holds, until the function fills it. -/
theorem Activation.held_eq {ok : Instr → Prop} (h : Activation m depth ok c c')
    (hok : ∀ i, ok i → i.fills? ≠ some slot) : c'.held depth slot = c.held depth slot := by
  induction h with
  | refl _ => rfl
  | step hstep hdepth hcode hrest ih =>
    -- what follows is an activation too, so the function has not returned in this step
    have hdepth' := by
      cases hrest with
      | refl h => exact h
      | step _ h _ _ => exact h
    exact ih.trans (held_step hstep hdepth hdepth' fun htop i hi => hok i (hcode htop i hi))

end Machine

end Code

/-- Where a compilation gives a module, the loads and stores of a function's code are the uses of
variables in its body, in order, each at a slot that belongs to its variable alone.  A reference
that is bound to a variable is another variable.  However the other slots are filled, the slots
of a variable hold what they held, until the function stores to the variable itself. -/
theorem references_have_own_slots (o : Options) (name : String) (text : List Char)
    {m : Code.Module} (hm : (compileText o name text).module = some m) :
    let ctx := (Source.ofText 0 name text).context
    ∃ result, (compileText o name text).scheduled = some result ∧
      ∀ f ∈ result.program.functions, ∃ code owner,
        m.functions.lookup f.name.name = some code ∧
        code.uses.map (Use.map owner) = usesOfBlock ctx f.body ∧
        (∀ pair ∈ referencesOfBlock ctx f.body, ∃ r v, pair = (some r, some v) ∧ r ≠ v) ∧
        ∀ symbol slot depth c c', owner slot = some symbol →
          Code.Activation m depth (fun i => ∀ filled ∈ i.fills?, owner filled ≠ some symbol) c c' →
            c'.held depth slot = c.held depth slot := by
  obtain ⟨hclean, hscheduled, module, herrors, rfl⟩ := ofSource_module hm
  refine ⟨_, hscheduled, fun f hf => ?_⟩
  generalize Source.ofText 0 name text = s at *
  have hlowers := s.lowersFunctions_planned hclean o.lowering module herrors
  obtain ⟨code, hcode, hcodeOf⟩ := hlowers.lookup (s.nodup_functionNames_planned hclean) f hf
  obtain ⟨⟨owner, huses⟩, hapart⟩ := hcodeOf.uses
  refine ⟨code, owner, hcode, huses, hapart, fun symbol slot depth c c' howner hrun => ?_⟩
  exact hrun.held_eq fun i hi hfills => hi slot hfills howner

/-- A text with a reference that is assigned to, and its variable printed. -/
def assignedReference : List Char :=
  "fn main() \x7b int x = 1; int& r = x; r = 5; print(x); \x7d".toList

/-- It compiles to the code of its program with cleanup. -/
theorem module_assignedReference :
    (compileText {} "alias" assignedReference).module =
      some (Code.lowerProgram (Source.ofText 0 "alias" assignedReference).context
        ({} : Options).lowering
        ((fileName? (Source.ofText 0 "alias" assignedReference).path).getD "keel")
        (Source.ofText 0 "alias" assignedReference).planned.1.program).1 := by
  rw [compileText_module]
  exact ofSource_module_eq (o := {}) (s := .ofText 0 "alias" assignedReference) rfl rfl
    (by decide +kernel) (by decide +kernel) (by decide +kernel) (by decide +kernel)
    (by decide +kernel)

theorem references_have_own_slots_assignedReference :
    ∃ m, (compileText {} "alias" assignedReference).module = some m ∧
      let ctx := (Source.ofText 0 "alias" assignedReference).context
      ∃ result, (compileText {} "alias" assignedReference).scheduled = some result ∧
        (result.program.functions.flatMap fun f => referencesOfBlock ctx f.body) =
          [(some 1, some 0)] ∧
        ∀ f ∈ result.program.functions, ∃ code owner,
          m.functions.lookup f.name.name = some code ∧
          code.uses.map (Use.map owner) = usesOfBlock ctx f.body := by
  obtain ⟨result, hresult, hall⟩ :=
    references_have_own_slots {} "alias" assignedReference module_assignedReference
  have hplanned := compileText_scheduled module_assignedReference
  obtain rfl := Option.some.inj (hresult.symm.trans hplanned)
  refine ⟨_, module_assignedReference, _, hplanned, by decide +kernel, fun f hf => ?_⟩
  obtain ⟨code, owner, hcode, huses, -⟩ := hall f hf
  exact ⟨code, owner, hcode, huses⟩

/-- What is printed is what the variable held before the reference was assigned to. -/
theorem reference_not_aliased_assignedReference :
    (compileText {} "alias" assignedReference).module.map (fun m => m.run 20 "main") =
      some ⟨[⟨"print", [.text [37, 100, 10, 0], .number 1]⟩], some .finished⟩ := by
  rw [module_assignedReference]
  decide +kernel

end DeferLang
