import DeferLang.Proofs.Bare
import DeferLang.Proofs.KnownActions
import DeferLang.Proofs.TypingRules

/-!
# Planned programs are typed

Planning puts deferred calls in front of exits.  Every call that is registered on a
variable was typed where its `defer` stands, and what is in scope there is in scope
at every exit of the blocks around that know the call.  A planned body is therefore
typed if the body is.
-/

namespace DeferLang

open Cleanup

variable {c : Context} {scope scope' : List SymbolId}

theorem Context.typesStmts_singleton {s : Stmt} :
    c.TypesStmts scope [s] scope' ↔ c.TypesStmt scope s scope' := by
  constructor
  · rintro (_ | ⟨hs, _ | _⟩)
    exact hs
  · exact fun hs => .cons hs .nil

/-- A cleanup action is typed if it is no call, or a typed one. -/
def Context.TypesAction (c : Context) (scope : List SymbolId) (action : CleanupAction) : Prop :=
  ∀ call, action = .deferred call → c.TypesCall scope call

theorem Context.TypesAction.mono {action : CleanupAction} (h : c.TypesAction scope action)
    (hsub : scope ⊆ scope') : c.TypesAction scope' action :=
  fun call hcall => (h call hcall).mono hsub

namespace ScopeCleanup

/-- All actions that a scope knows are typed: those on its variables, and those for the scopes
around it. -/
abbrev Typed (c : Context) (scope : List SymbolId) (t : ScopeCleanup) : Prop :=
  t.Knows (c.TypesAction scope)

theorem Typed.mono {t : ScopeCleanup} (h : t.Typed c scope) (hsub : scope ⊆ scope') :
    t.Typed c scope' :=
  h.imp fun _ haction => haction.mono hsub

end ScopeCleanup

section Plan

variable (ctx : Context) {t : ScopeCleanup}

/-- The cleanup at an exit is typed. -/
theorem typesStmts_sequence (h : t.Typed c scope) (order : List SymbolId) (exit : Span) :
    c.TypesStmts scope ((Cleanup.sequence ctx t order exit).map .cleanup) scope := by
  have hitems : ∀ item ∈ Cleanup.sequence ctx t order exit, c.TypesAction scope item.action :=
    fun _ hitem => h.sequence (fun _ hcall => by contradiction) ctx hitem
  generalize Cleanup.sequence ctx t order exit = items at hitems
  induction items with
  | nil => exact .nil
  | cons item items ih =>
    rw [List.forall_mem_cons] at hitems
    exact .cons (.cleanup hitems.1) (ih hitems.2)

/-- A deferred call that is typed leaves typed orders. -/
theorem typed_planDefer (h : t.Typed c scope) {call : Call} (hcall : c.TypesCall scope call)
    (returnFollows : Bool) : (planDefer ctx t call returnFollows).1.Typed c scope :=
  knows_planDefer ctx h (fun _ hfound => CleanupAction.deferred.inj hfound ▸ hcall)
    (fun _ _ hfound => by contradiction) returnFollows

/-- Closing a block whose statements are typed. -/
theorem typesBlock_planEnd (id : NodeId) (span : Span) {body : Cleanup.Planned (List Stmt)}
    (hstmts : c.TypesStmts scope body.value scope') (h : body.orders.Typed c scope') :
    c.TypesBlock scope (planEnd ctx id span body).value scope' ∧
      (planEnd ctx id span body).orders.Typed c scope' := by
  unfold planEnd
  split
  · exact ⟨.mk hstmts, h⟩
  · exact ⟨.mk (hstmts.append (typesStmts_sequence ctx h _ _)), h⟩

mutual

/-- A planned statement is typed like the statement. -/
theorem typesStmts_planStmt (s : Stmt) {t : ScopeCleanup} (returnFollows : Bool)
    {scope scope' : List SymbolId} (h : t.Typed c scope) (hs : c.TypesStmts scope s.bare scope') :
    c.TypesStmts scope (planStmt ctx t returnFollows s).value scope' ∧
      (planStmt ctx t returnFollows s).orders.Typed c scope' := by
  match s with
  | .varDecl d =>
    have hscope := hs.scope_subset
    refine ⟨hs, ?_⟩
    rw [planStmt]
    dsimp only
    split
    · exact (h.mono hscope).declare _
    · exact h.mono hscope
  | .assign _ _ _ | .call _ _ =>
    exact ⟨hs, h.mono hs.scope_subset⟩
  | .cleanup _ =>
    cases hs
    exact ⟨.nil, h⟩
  | .defer _ call =>
    refine ⟨hs, ?_⟩
    cases Context.typesStmts_singleton.1 hs with
    | defer hcall => exact typed_planDefer ctx h hcall returnFollows
  | .ret _ value =>
    cases Context.typesStmts_singleton.1 hs with
    | ret =>
      refine ⟨(typesStmts_sequence ctx h _ _).append (.cons .ret .nil), ?_⟩
      exact ⟨h.registered, h.inherited⟩
  | .block body =>
    cases Context.typesStmts_singleton.1 hs with
    | block hbody =>
      obtain ⟨hvalue, horders⟩ := typesBlock_planBlock body (some t) .block none
        (fun _ ht => Option.some.inj ht ▸ h) hbody
      refine ⟨.cons (.block hvalue) .nil, ?_⟩
      exact ((h.mono hs.scope_subset).replay horders.inherited).noteReturn _
  | .ifElse _ _ thenBody none =>
    cases Context.typesStmts_singleton.1 hs with
    | ifThen hcond hthen =>
      obtain ⟨hvalue, -⟩ := typesBlock_planBlock thenBody (some t) .thenBranch none
        (fun _ ht => Option.some.inj ht ▸ h) hthen
      exact ⟨.cons (.ifThen hcond hvalue) .nil, h.noteReturn _⟩
  | .ifElse _ _ thenBody (some elseBody) =>
    cases Context.typesStmts_singleton.1 hs with
    | ifElse hcond hthen helse =>
      obtain ⟨hvalue, -⟩ := typesBlock_planBlock thenBody (some t) .thenBranch none
        (fun _ ht => Option.some.inj ht ▸ h) hthen
      obtain ⟨hvalue', -⟩ := typesBlock_planBlock elseBody (some t) .elseBranch none
        (fun _ ht => Option.some.inj ht ▸ h) helse
      exact ⟨.cons (.ifElse hcond hvalue hvalue') .nil, (h.noteReturn _).noteReturn _⟩
  | .whileLoop _ _ body =>
    cases Context.typesStmts_singleton.1 hs with
    | whileLoop hcond hbody =>
      obtain ⟨hvalue, -⟩ := typesBlock_planBlock body (some t) .whileBody none
        (fun _ ht => Option.some.inj ht ▸ h) hbody
      exact ⟨.cons (.whileLoop hcond hvalue) .nil, h.noteReturn _⟩
  | .forIn id _ _ _ body =>
    cases Context.typesStmts_singleton.1 hs with
    | forIn hiter hint hdecl htype hnew hbody =>
      obtain ⟨hvalue, -⟩ := typesBlock_planBlock body (some t) .forBody
        (ctx.declSymbol? id)
        (fun _ ht => Option.some.inj ht ▸ h.mono (List.subset_cons_self _ _)) hbody
      exact ⟨.cons (.forIn hiter hint hdecl htype hnew hvalue) .nil, h.noteReturn _⟩

theorem typesBlock_planBlock (b : BlockOf Stmt) (outer : Option ScopeCleanup) (kind : ScopeKind)
    (loopVar : Option SymbolId) {scope scope' : List SymbolId}
    (h : ∀ t ∈ outer, t.Typed c scope) (hb : c.TypesBlock scope (bareBlock b) scope') :
    c.TypesBlock scope (planBlock ctx outer kind loopVar b).value scope' ∧
      (planBlock ctx outer kind loopVar b).orders.Typed c scope' := by
  match b, hb with
  | ⟨id, span, stmts⟩, .mk hstmts =>
    obtain ⟨hvalue, horders⟩ :=
      typesStmts_planStmts stmts (knows_entryOrders h id span kind loopVar) hstmts
    exact typesBlock_planEnd ctx id span hvalue horders

theorem typesStmts_planStmts (ss : List Stmt) {t : ScopeCleanup} {scope scope' : List SymbolId}
    (h : t.Typed c scope) (hss : c.TypesStmts scope (bareStmts ss) scope') :
    c.TypesStmts scope (planStmts ctx t ss).value scope' ∧
      (planStmts ctx t ss).orders.Typed c scope' := by
  match ss with
  | [] =>
    cases hss
    exact ⟨.nil, h⟩
  | s :: ss =>
    obtain ⟨mid, hs, hrest⟩ := Context.TypesStmts.of_append hss
    obtain ⟨hvalue, horders⟩ := typesStmts_planStmt s (ss.any Stmt.isReturn) h hs
    obtain ⟨hvalue', horders'⟩ := typesStmts_planStmts ss horders hrest
    exact ⟨hvalue.append hvalue', horders'⟩

end

/-- A planned body is typed. -/
theorem typesBlock_planBody {body : Block} (h : c.TypesBlock [] (bareBlock body) scope') :
    c.TypesBlock [] (planBody ctx body).value scope' :=
  (typesBlock_planBlock ctx body none .body none (fun _ ht => by contradiction) h).1

end Plan

end DeferLang
