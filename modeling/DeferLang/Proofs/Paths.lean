import DeferLang.Proofs.Nesting

/-!
# Paths through a body

A path through a body takes either branch of an `if` and any number of rounds
of a loop, and ends at a `return` or at the end of the body.  It is given by
what happens on it that matters to cleanup.

`Invariant` says what has to be shown of single steps from point to point, so
that a property of what happened so far holds all along every path.
-/

namespace DeferLang

open List

/-- What happens on a path. -/
inductive Event where
  /-- A variable comes to life in the scope of a block. -/
  | declared (block decl : NodeId)
  | deferred (call : Call)
  | cleaned (item : Cleanup)
  /-- Another statement runs, or a condition is tested. -/
  | ran (span : Span)
  /-- Control leaves the scope of a block. -/
  | left (block : NodeId) (how : ExitKind)
deriving DecidableEq

variable {how : ExitKind} {events h : List Event}

/-- What happens when a statement without blocks in it runs in the scope of a block. -/
def Stmt.events? (block : NodeId) : Stmt → Option (List Event)
  | .varDecl d => some [.declared block d.id]
  | .defer _ c => some [.deferred c]
  | .cleanup item => some [.cleaned item]
  | .assign span _ _ => some [.ran span]
  | .call span _ => some [.ran span]
  | _ => none

/-- The rounds of a loop, over the paths through its body.  Before every round, and once more
at the end, the loop decides whether to go on. -/
inductive Rounds (span : Span) (once : List Event → ExitKind → Prop) :
    List Event → ExitKind → Prop where
  | stop : Rounds span once [.ran span] .fallOff
  | again {events later : List Event} {how : ExitKind} (hround : once events .fallOff)
      (hlater : Rounds span once later how) : Rounds span once (.ran span :: events ++ later) how
  | returned {events : List Event} (hround : once events .ret) :
      Rounds span once (.ran span :: events) .ret

mutual

/-- The paths through a statement in the scope of a block: what happens, and whether control
goes on behind the statement or returns. -/
def Stmt.Runs (block : NodeId) : Stmt → List Event → ExitKind → Prop
  | .varDecl d, events, how => events = [.declared block d.id] ∧ how = .fallOff
  | .defer _ call, events, how => events = [.deferred call] ∧ how = .fallOff
  | .cleanup item, events, how => events = [.cleaned item] ∧ how = .fallOff
  | .assign span _ _, events, how => events = [.ran span] ∧ how = .fallOff
  | .call span _, events, how => events = [.ran span] ∧ how = .fallOff
  | .ret _ _, events, how => events = [] ∧ how = .ret
  | .block body, events, how => RunsBlock none body events how
  | .ifElse span _ thenBody none, events, how =>
    ∃ later, events = .ran span :: later ∧
      (RunsBlock none thenBody later how ∨ later = [] ∧ how = .fallOff)
  | .ifElse span _ thenBody (some elseBody), events, how =>
    ∃ later, events = .ran span :: later ∧
      (RunsBlock none thenBody later how ∨ RunsBlock none elseBody later how)
  | .whileLoop span _ body, events, how => Rounds span (RunsBlock none body) events how
  | .forIn id span _ _ body, events, how => Rounds span (RunsBlock (some id) body) events how

/-- The paths through a block.  The variable of a loop comes to life in every round. -/
def RunsBlock (loopVar : Option NodeId) : BlockOf Stmt → List Event → ExitKind → Prop
  | ⟨id, _, stmts⟩, events, how =>
    ∃ inner, events = loopVar.toList.map (.declared id) ++ inner ++ [.left id how] ∧
      RunsStmts id stmts inner how

/-- The paths through the statements of a block. -/
def RunsStmts (block : NodeId) : List Stmt → List Event → ExitKind → Prop
  | [], events, how => events = [] ∧ how = .fallOff
  | s :: ss, events, how =>
    (∃ first later, events = first ++ later ∧ s.Runs block first .fallOff ∧
      RunsStmts block ss later how) ∨
    (how = .ret ∧ s.Runs block events .ret)

end

/-- A path through the body of a function or special member. -/
def Block.Path (body : Block) (events : List Event) : Prop :=
  ∃ how, RunsBlock none body events how

/-- One round of a loop, given the path through its body. -/
def straightLoop (span : Span) : List Event × ExitKind → List Event × ExitKind
  | (events, .ret) => (.ran span :: events, .ret)
  | (events, .fallOff) => (.ran span :: events ++ [.ran span], .fallOff)

theorem rounds_straightLoop {span : Span} {once : List Event → ExitKind → Prop}
    {round : List Event × ExitKind} (h : once round.1 round.2) :
    Rounds span once (straightLoop span round).1 (straightLoop span round).2 := by
  match round with
  | (events, .ret) => exact .returned h
  | (events, .fallOff) => exact .again h .stop

mutual

/-- The path through a statement that enters every block it meets once, an `else` apart. -/
def Stmt.straight (block : NodeId) : Stmt → List Event × ExitKind
  | .varDecl d => ([.declared block d.id], .fallOff)
  | .defer _ call => ([.deferred call], .fallOff)
  | .cleanup item => ([.cleaned item], .fallOff)
  | .assign span _ _ => ([.ran span], .fallOff)
  | .call span _ => ([.ran span], .fallOff)
  | .ret _ _ => ([], .ret)
  | .block body => straightBlock none body
  | .ifElse span _ thenBody _ =>
    (.ran span :: (straightBlock none thenBody).1, (straightBlock none thenBody).2)
  | .whileLoop span _ body => straightLoop span (straightBlock none body)
  | .forIn id span _ _ body => straightLoop span (straightBlock (some id) body)

def straightBlock (loopVar : Option NodeId) : BlockOf Stmt → List Event × ExitKind
  | ⟨id, _, stmts⟩ =>
    (loopVar.toList.map (.declared id) ++ (straightStmts id stmts).1 ++
      [.left id (straightStmts id stmts).2], (straightStmts id stmts).2)

def straightStmts (block : NodeId) : List Stmt → List Event × ExitKind
  | [] => ([], .fallOff)
  | s :: ss =>
    match s.straight block with
    | (events, .ret) => (events, .ret)
    | (events, .fallOff) =>
      (events ++ (straightStmts block ss).1, (straightStmts block ss).2)

end

mutual

theorem Stmt.runs_straight (block : NodeId) (s : Stmt) :
    s.Runs block (s.straight block).1 (s.straight block).2 := by
  match s with
  | .varDecl _ | .assign _ _ _ | .call _ _ | .ret _ _ | .defer _ _ | .cleanup _ =>
    exact ⟨rfl, rfl⟩
  | .block b => exact runs_straightBlock none b
  | .ifElse _ _ b none => exact ⟨_, rfl, .inl (runs_straightBlock none b)⟩
  | .ifElse _ _ b (some _) => exact ⟨_, rfl, .inl (runs_straightBlock none b)⟩
  | .whileLoop _ _ b => exact rounds_straightLoop (runs_straightBlock none b)
  | .forIn id _ _ _ b => exact rounds_straightLoop (runs_straightBlock (some id) b)

theorem runs_straightBlock (loopVar : Option NodeId) (b : BlockOf Stmt) :
    RunsBlock loopVar b (straightBlock loopVar b).1 (straightBlock loopVar b).2 := by
  match b with
  | ⟨id, _, ss⟩ => exact ⟨_, rfl, runs_straightStmts id ss⟩

theorem runs_straightStmts (block : NodeId) (ss : List Stmt) :
    RunsStmts block ss (straightStmts block ss).1 (straightStmts block ss).2 := by
  match ss with
  | [] => exact ⟨rfl, rfl⟩
  | s :: ss =>
    have hfirst := s.runs_straight block
    have hlater := runs_straightStmts block ss
    rw [straightStmts]
    match s.straight block, hfirst with
    | (events, .ret), hfirst => exact .inr ⟨rfl, hfirst⟩
    | (events, .fallOff), hfirst => exact .inl ⟨events, _, rfl, hfirst, hlater⟩

end

/-- The path through a body that enters every block it meets once. -/
def Block.straightPath (body : Block) : List Event :=
  (straightBlock none body).1

theorem Block.path_straightPath (body : Block) : body.Path body.straightPath :=
  ⟨_, runs_straightBlock none body⟩

/-- Control does not go on behind a `return`. -/
theorem Stmt.isReturn_of_runs {block : NodeId} {s : Stmt}
    (hrun : s.Runs block events .fallOff) : s.isReturn = false := by
  cases s with
  | ret _ _ =>
    rw [Stmt.Runs] at hrun
    exact absurd hrun.2 (by decide)
  | _ => rfl

theorem endsWithReturn_of_any {stmts : List Stmt} (h : stmts.any Stmt.isReturn = false) :
    endsWithReturn stmts = false := by
  unfold endsWithReturn
  cases hlast : stmts.getLast? with
  | none => rfl
  | some s => simpa using any_eq_false.1 h s (mem_of_getLast? hlast)

/-- What single steps do to a property `J` of what happened up to a point of a body, and to the
property `K` that takes its place once a `return` is executed. -/
structure Invariant (body : Block) (J K : List Event → Point → Prop) : Prop where
  /-- A statement without blocks runs. -/
  step : ∀ {h : List Event} {head before rest outer} {s : Stmt} {events : List Event},
    Point.In body (⟨head, before, s :: rest⟩ :: outer) → s.events? head.block = some events →
    J h (⟨head, before, s :: rest⟩ :: outer) →
    J (h ++ events) (⟨head, before ++ [s], rest⟩ :: outer)
  /-- A condition is tested. -/
  test : ∀ {h : List Event} {p : Point} {s : Stmt} (span : Span), p.In body → p.next? = some s →
    s.blocks ≠ [] → J h p → J (h ++ [.ran span]) p
  /-- A block is entered. -/
  enter : ∀ {h : List Event} {p : Point} {s : Stmt} {kind loopVar b}, p.In body →
    p.next? = some s → (kind, loopVar, b) ∈ s.blocks → J h p →
    J (h ++ (loopVar.map LocalVar.decl).toList.map (.declared b.id)) (p.enter kind loopVar b)
  /-- Control falls off the end of a scope. -/
  leave : ∀ {h : List Event} {head before} {outer : Point},
    Point.In body (⟨head, before, []⟩ :: outer) → before.any Stmt.isReturn = false →
    J h (⟨head, before, []⟩ :: outer) → J (h ++ [.left head.block .fallOff]) outer.advance
  /-- A statement with blocks makes no difference by itself. -/
  skip : ∀ {h : List Event} {p : Point} {s : Stmt} {kind loopVar b}, p.In body →
    p.next? = some s → (kind, loopVar, b) ∈ s.blocks → kind.isConditional = true →
    (J h p ↔ J h p.advance)
  /-- A `return` is executed. -/
  ret : ∀ {h : List Event} {p : Point} {span value}, p.In body →
    p.next? = some (.ret span value) → J h p → K h p
  /-- A `return` leaves a scope. -/
  leaveReturning : ∀ {h : List Event} {sc : OpenScope} {outer : Point},
    Point.In body (sc :: outer) → K h (sc :: outer) → K (h ++ [.left sc.head.block .ret]) outer

namespace Invariant

/-- What holds when a statement behind a point is done. -/
def After (J K : List Event → Point → Prop) (h : List Event) (p : Point) : ExitKind → Prop
  | .fallOff => J h p.advance
  | .ret => K h p

/-- What holds when the statements of a scope are done. -/
def AtEnd (body : Block) (J K : List Event → Point → Prop) (h : List Event) (head : ScopeHead)
    (stmts : List Stmt) (outer : Point) : ExitKind → Prop
  | .fallOff =>
    Point.In body (⟨head, stmts, []⟩ :: outer) ∧ stmts.any Stmt.isReturn = false ∧
      J h (⟨head, stmts, []⟩ :: outer)
  | .ret =>
    ∃ before rest, Point.In body (⟨head, before, rest⟩ :: outer) ∧
      K h (⟨head, before, rest⟩ :: outer)

variable {body : Block} {J K : List Event → Point → Prop}

/-- Leaving a scope keeps an invariant. -/
theorem leaveScope (inv : Invariant body J K) {head : ScopeHead} {stmts : List Stmt} {outer : Point}
    (hend : AtEnd body J K h head stmts outer how) :
    After J K (h ++ [.left head.block how]) outer how := by
  cases how with
  | fallOff =>
    obtain ⟨hin, hreturn, hJ⟩ := hend
    exact inv.leave hin hreturn hJ
  | ret =>
    obtain ⟨before, rest, hin, hK⟩ := hend
    exact inv.leaveReturning hin hK

theorem After.append_assoc {first later : List Event} {p : Point}
    (hafter : After J K (h ++ first ++ later) p how) : After J K (h ++ (first ++ later)) p how :=
  List.append_assoc h first later ▸ hafter

/-- The rounds of a loop keep an invariant, if the paths through its body do. -/
theorem rounds (inv : Invariant body J K) {here : Point} {s : Stmt} {kind : ScopeKind}
    {loopVar : Option LocalVar} {b : Block} (hhere : here.In body) (hnext : here.next? = some s)
    (hblock : (kind, loopVar, b) ∈ s.blocks) (hkind : kind.isConditional = true) {span : Span}
    {once : List Event → ExitKind → Prop}
    (honce : ∀ {h events how}, J h here → once events how → After J K (h ++ events) here how)
    (hrounds : Rounds span once events how) (hJ : J h here) : After J K (h ++ events) here how := by
  have htest : ∀ {h}, J h here → J (h ++ [.ran span]) here :=
    inv.test span hhere hnext (ne_nil_of_mem hblock)
  induction hrounds generalizing h with
  | stop => exact (inv.skip hhere hnext hblock hkind).1 (htest hJ)
  | again hround _ ih =>
    -- behind the loop and in front of its next round the same holds
    have hdone := honce (htest hJ) hround
    have hback := (inv.skip hhere hnext hblock hkind).2 hdone
    simpa using ih hback
  | returned hround => simpa using honce (htest hJ) hround

mutual

/-- A path through a statement keeps an invariant. -/
theorem stmt (inv : Invariant body J K) {head : ScopeHead} {before rest : List Stmt}
    {outer : Point} (s : Stmt) (hhere : Point.In body (⟨head, before, s :: rest⟩ :: outer))
    {h events : List Event} {how : ExitKind} (hrun : s.Runs head.block events how)
    (hJ : J h (⟨head, before, s :: rest⟩ :: outer)) :
    After J K (h ++ events) (⟨head, before, s :: rest⟩ :: outer) how := by
  match s with
  | .varDecl _ | .assign _ _ _ | .call _ _ | .defer _ _ | .cleanup _ =>
    obtain ⟨rfl, rfl⟩ := hrun
    exact inv.step hhere rfl hJ
  | .ret _ _ =>
    obtain ⟨rfl, rfl⟩ := hrun
    rw [append_nil]
    exact inv.ret hhere rfl hJ
  | .block b =>
    exact inv.block b hhere rfl mem_cons_self hrun hJ
  | .ifElse span _ b none =>
    obtain ⟨later, rfl, hrun⟩ := hrun
    have htested := inv.test span hhere rfl (cons_ne_nil _ _) hJ
    rw [← singleton_append]
    refine After.append_assoc ?_
    rcases hrun with hrun | ⟨rfl, rfl⟩
    · exact inv.block b hhere rfl mem_cons_self hrun htested
    · rw [append_nil]
      -- the branch is not taken
      exact (inv.skip hhere rfl mem_cons_self rfl).1 htested
  | .ifElse span _ b (some c) =>
    obtain ⟨later, rfl, hrun⟩ := hrun
    have htested := inv.test span hhere rfl (cons_ne_nil _ _) hJ
    rw [← singleton_append]
    refine After.append_assoc ?_
    rcases hrun with hrun | hrun
    · exact inv.block b hhere rfl mem_cons_self hrun htested
    · have hsecond := mem_cons_of_mem (ScopeKind.thenBranch, (none : Option LocalVar), b)
        (mem_singleton_self (ScopeKind.elseBranch, (none : Option LocalVar), c))
      exact inv.block c hhere rfl hsecond hrun htested
  | .whileLoop _ _ b | .forIn _ _ _ _ b =>
    exact inv.rounds hhere rfl mem_cons_self rfl
      (fun hJ hrun => inv.block b hhere rfl mem_cons_self hrun hJ) hrun hJ
termination_by structural s

/-- A path through a block of the next statement keeps an invariant. -/
theorem block (inv : Invariant body J K) {here : Point} {s : Stmt} {kind : ScopeKind}
    {loopVar : Option LocalVar} (b : BlockOf Stmt) (hhere : here.In body)
    (hnext : here.next? = some s) (hblock : (kind, loopVar, b) ∈ s.blocks) {h events : List Event}
    {how : ExitKind} (hrun : RunsBlock (loopVar.map LocalVar.decl) b events how) (hJ : J h here) :
    After J K (h ++ events) here how := by
  match b with
  | ⟨id, span, ss⟩ =>
    obtain ⟨inner, rfl, hrun⟩ := hrun
    have hin := hhere.enter hnext hblock
    have hstart := inv.enter hhere hnext hblock hJ
    have hdone := inv.leaveScope (inv.stmts ss hin rfl hrun hstart)
    simpa using hdone
termination_by structural b

/-- A path through the rest of a scope keeps an invariant, up to the end of the scope or to a
`return` in it. -/
theorem stmts (inv : Invariant body J K) {head : ScopeHead} {before : List Stmt} {outer : Point}
    (ss : List Stmt) (hhere : Point.In body (⟨head, before, ss⟩ :: outer))
    (hbefore : before.any Stmt.isReturn = false) {h events : List Event} {how : ExitKind}
    (hrun : RunsStmts head.block ss events how) (hJ : J h (⟨head, before, ss⟩ :: outer)) :
    AtEnd body J K (h ++ events) head (before ++ ss) outer how := by
  match ss with
  | [] =>
    obtain ⟨rfl, rfl⟩ := hrun
    rw [append_nil, append_nil]
    exact ⟨hhere, hbefore, hJ⟩
  | s :: ss =>
    rcases hrun with ⟨first, later, rfl, hfirst, hlater⟩ | ⟨rfl, hrun⟩
    · have hbehind := inv.stmt s hhere hfirst hJ
      -- control came to `ss`, so `s` is no `return`
      have hbefore' : (before ++ [s]).any Stmt.isReturn = false := by
        simp [hbefore, Stmt.isReturn_of_runs hfirst]
      have hdone := inv.stmts ss (hhere.advance rfl) hbefore' hlater hbehind
      simpa using hdone
    · exact ⟨before, s :: ss, hhere, inv.stmt s hhere hrun hJ⟩
termination_by structural ss

end

/-- A path through a whole body keeps an invariant. -/
theorem path (inv : Invariant body J K) (hpath : body.Path events)
    (hstart : J [] [⟨⟨body.id, body.span, .body, none⟩, [], body.stmts⟩]) :
    J events [] ∨ K events [] := by
  obtain ⟨how, hrun⟩ := hpath
  obtain ⟨id, span, ss⟩ := body
  obtain ⟨inner, rfl, hrun⟩ := hrun
  have hdone := inv.leaveScope (inv.stmts ss (.body rfl) rfl hrun hstart)
  cases how with
  | fallOff => exact .inl hdone
  | ret => exact .inr hdone

end Invariant

end DeferLang
