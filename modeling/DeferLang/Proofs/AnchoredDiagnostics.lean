import DeferLang.Proofs.CompilationEnds
import DeferLang.Proofs.KnownActions
import DeferLang.Proofs.NestedSpans
import DeferLang.Proofs.UnspannedCode

/-!
# Diagnostics are anchored in the text

Cleanup reports at spans of the program that was checked, and moves calls, with their
spans, to other places of the tree.  With what the other passes report, every anchor of a
compilation stands at a word of the text, or at its end (`diagnostics_anchored`).
-/

namespace DeferLang

open List
open Cleanup hiding span

variable {P : Span → Prop}

section Cleanup

variable (ctx : Context) {t : ScopeCleanup} {call : Call}

/-- An action that hands on a call with spans of a property, or none. -/
def CleanupAction.Placed (P : Span → Prop) (action : CleanupAction) : Prop :=
  ∀ o ∈ action.outlines, o.Every P

theorem CleanupAction.placed_destructor : CleanupAction.destructor.Placed P :=
  nofun

theorem CleanupAction.placed_releasedBy (owner : String) :
    (CleanupAction.releasedBy owner).Placed P :=
  nofun

theorem CleanupAction.placed_deferred (h : call.outline.Every P) :
    (CleanupAction.deferred call).Placed P :=
  forall_mem_singleton.2 h

/-- The place of a fault, if it has one, has a property. -/
def CleanupError.Placed (P : Span → Prop) (e : CleanupError) : Prop :=
  ∀ place ∈ e.place, P place.1

theorem span_deferredVars {args : List Expr} (h : ∀ e ∈ args, e.outline.Every P) :
    ∀ x ∈ deferredVars ctx t args, P x.2 := by
  unfold deferredVars
  refine List.foldlRecOn (motive := fun found : List (SymbolId × Span) => ∀ x ∈ found, P x.2)
    args _ nofun fun found hfound arg harg => ?_
  split
  · rename_i id name
    split
    · split
      · exact forall_mem_append.2 ⟨hfound, forall_mem_singleton.2 (h _ harg).at⟩
      · exact hfound
    · exact hfound
  · exact hfound

theorem span_deferEffects {vars : List (SymbolId × Span)} (h : ∀ x ∈ vars, P x.2) :
    ∀ e ∈ deferEffects ctx call vars, P e.span := by
  cases vars with
  | nil => exact nofun
  | cons var others =>
    rw [forall_mem_cons] at h
    refine forall_mem_append.2 ⟨fun e he => ?_, forall_mem_singleton.2 h.1⟩
    rw [mem_reverse] at he
    obtain ⟨other, hother, rfl⟩ := mem_map.1 he
    exact h.2 other hother

/-- A `defer` is faulty at its call, or at a variable that it names. -/
theorem placed_planDefer (h : call.outline.Every P) (returnFollows : Bool) :
    ∀ e ∈ (planDefer ctx t call returnFollows).2, e.Placed P := by
  obtain ⟨hspan, -, hargs⟩ := Call.every_outline.1 h
  have heffects : ∀ e ∈ deferEffects ctx call (deferredVars ctx t call.args),
      P e.span :=
    span_deferEffects ctx (span_deferredVars ctx hargs)
  unfold planDefer
  dsimp only
  split
  · exact forall_mem_singleton.2 fun place hplace => Option.some.inj hplace ▸ hspan
  split
  · exact nofun
  · unfold deferFaults
    split
    · intro e he
      obtain ⟨effect, hmem, rfl⟩ := mem_map.1 he
      exact fun place hplace => Option.some.inj hplace ▸ heffects effect (mem_filter.1 hmem).1
    · exact nofun

/-- What planning makes of a piece of program: parts, actions and faults with spans of a property.
`V` says so of the parts. -/
structure Cleanup.Planned.Placed {α : Type} (P : Span → Prop) (V : α → Prop) (x : Planned α) :
    Prop where
  value : V x.value
  orders : x.orders.Knows (CleanupAction.Placed P)
  errors : ∀ e ∈ x.errors, e.Placed P

theorem outlinesOfStmts_append (xs ys : List Stmt) :
    outlinesOfStmts (xs ++ ys) = outlinesOfStmts xs ++ outlinesOfStmts ys := by
  simp only [outlinesOfStmts_eq_flatMap, flatMap_append]

/-- The cleanup at an exit stands where its calls were deferred. -/
theorem every_sequence (h : t.Knows (CleanupAction.Placed P)) (order : List SymbolId)
    (exit : Span) :
    ∀ o ∈ outlinesOfStmts ((Cleanup.sequence ctx t order exit).map .cleanup), o.Every P := by
  rw [outlinesOfStmts_eq_flatMap, flatMap_map]
  intro o ho
  obtain ⟨item, hitem, ho⟩ := mem_flatMap.1 ho
  exact h.sequence CleanupAction.placed_destructor ctx hitem o ho

theorem placed_planEnd (id : NodeId) {span : Span} (hspan : P span)
    {body : Cleanup.Planned (List Stmt)}
    (h : body.Placed P fun ss => ∀ o ∈ outlinesOfStmts ss, o.Every P) :
    (planEnd ctx id span body).Placed P fun b => (outlineOfBlock b).Every P := by
  unfold planEnd
  split
  · exact ⟨every_outlineOfBlock.2 ⟨hspan, h.value⟩, h.orders, h.errors⟩
  · refine ⟨every_outlineOfBlock.2 ⟨hspan, ?_⟩, h.orders, h.errors⟩
    rw [outlinesOfStmts_append]
    exact forall_mem_append.2 ⟨h.value, every_sequence ctx h.orders _ _⟩

theorem some_knows {A : CleanupAction → Prop} (h : t.Knows A) : ∀ t' ∈ some t, t'.Knows A :=
  fun _ ht' => Option.some.inj ht' ▸ h

mutual

theorem placed_planStmt {t : ScopeCleanup} (ht : t.Knows (CleanupAction.Placed P))
    (returnFollows : Bool) (s : Stmt) (h : s.Every P) :
    (planStmt ctx t returnFollows s).Placed P
      fun ss => ∀ o ∈ outlinesOfStmts ss, o.Every P := by
  have hone {s' : Stmt} (hs' : s'.Every P) : ∀ o ∈ outlinesOfStmts [s'], o.Every P :=
    every_cons.2 ⟨hs', nofun⟩
  match s with
  | .varDecl d =>
    refine ⟨hone h, ?_, nofun⟩
    rw [planStmt]
    dsimp only
    split
    · exact ht.declare _
    · exact ht
  | .assign _ _ _ | .call _ _ => exact ⟨hone h, ht, nofun⟩
  | .cleanup _ => exact ⟨nofun, ht, nofun⟩
  | .defer _ call =>
    have hcall := (Stmt.every_defer.1 h).2
    refine ⟨hone h, ?_, placed_planDefer ctx hcall returnFollows⟩
    exact knows_planDefer ctx ht (CleanupAction.placed_deferred hcall)
      CleanupAction.placed_releasedBy returnFollows
  | .ret span value =>
    refine ⟨?_, ⟨ht.registered, ht.inherited⟩, nofun⟩
    rw [planStmt, planReturn, outlinesOfStmts_append]
    exact forall_mem_append.2 ⟨every_sequence ctx ht _ _, hone h⟩
  | .block body =>
    have hbody := placed_planBlock (some_knows ht) .block none body (Stmt.every_block.1 h)
    refine ⟨hone (Stmt.every_block.2 hbody.value), ?_, hbody.errors⟩
    exact (ht.replay hbody.orders.inherited).noteReturn _
  | .ifElse span cond thenBody none =>
    obtain ⟨hspan, hcond, hthen⟩ := Stmt.every_ifThen.1 h
    have hbody := placed_planBlock (some_knows ht) .thenBranch none thenBody hthen
    have hvalue := Stmt.every_ifThen.2 ⟨hspan, hcond, hbody.value⟩
    exact ⟨hone hvalue, ht.noteReturn _, hbody.errors⟩
  | .ifElse span cond thenBody (some elseBody) =>
    obtain ⟨hspan, hcond, hthen, helse⟩ := Stmt.every_ifElse.1 h
    have hbody := placed_planBlock (some_knows ht) .thenBranch none thenBody hthen
    have hother := placed_planBlock (some_knows ht) .elseBranch none elseBody helse
    have hvalue := Stmt.every_ifElse.2 ⟨hspan, hcond, hbody.value, hother.value⟩
    exact ⟨hone hvalue, (ht.noteReturn _).noteReturn _,
      forall_mem_append.2 ⟨hbody.errors, hother.errors⟩⟩
  | .whileLoop span cond body =>
    obtain ⟨hspan, hcond, hloop⟩ := Stmt.every_whileLoop.1 h
    have hbody := placed_planBlock (some_knows ht) .whileBody none body hloop
    have hvalue := Stmt.every_whileLoop.2 ⟨hspan, hcond, hbody.value⟩
    exact ⟨hone hvalue, ht.noteReturn _, hbody.errors⟩
  | .forIn id span var iter body =>
    obtain ⟨hspan, hvar, hiter, hloop⟩ := Stmt.every_forIn.1 h
    have hbody := placed_planBlock (some_knows ht) .forBody (ctx.declSymbol? id) body hloop
    refine ⟨hone (Stmt.every_forIn.2 ⟨hspan, hvar, hiter, hbody.value⟩), ?_, hbody.errors⟩
    exact ht.noteReturn _

theorem placed_planBlock {outer : Option ScopeCleanup}
    (houter : ∀ t ∈ outer, t.Knows (CleanupAction.Placed P)) (kind : ScopeKind)
    (loopVar : Option SymbolId) (b : BlockOf Stmt) (h : (outlineOfBlock b).Every P) :
    (planBlock ctx outer kind loopVar b).Placed P fun b => (outlineOfBlock b).Every P := by
  match b with
  | ⟨id, span, stmts⟩ =>
    obtain ⟨hspan, hstmts⟩ := every_outlineOfBlock.1 h
    have horders := knows_entryOrders houter id span kind loopVar
    exact placed_planEnd ctx id hspan (placed_planStmts horders stmts hstmts)

theorem placed_planStmts {t : ScopeCleanup} (ht : t.Knows (CleanupAction.Placed P))
    (ss : List Stmt) (h : ∀ o ∈ outlinesOfStmts ss, o.Every P) :
    (planStmts ctx t ss).Placed P fun ss => ∀ o ∈ outlinesOfStmts ss, o.Every P := by
  match ss with
  | [] => exact ⟨nofun, ht, nofun⟩
  | s :: ss =>
    obtain ⟨hs, hss⟩ := every_cons.1 h
    have hfirst := placed_planStmt ht (ss.any Stmt.isReturn) s hs
    have hrest := placed_planStmts hfirst.orders ss hss
    refine ⟨?_, hrest.orders, forall_mem_append.2 ⟨hfirst.errors, hrest.errors⟩⟩
    rw [planStmts, outlinesOfStmts_append]
    exact forall_mem_append.2 ⟨hfirst.value, hrest.value⟩

end

theorem placed_planBody {body : Block} (h : (outlineOfBlock body).Every P) :
    (planBody ctx body).Placed P fun b => (outlineOfBlock b).Every P :=
  placed_planBlock ctx (fun _ ht => by contradiction) .body none body h

theorem every_planFunction {f : Function} (h : f.outline.Every P) :
    (planFunction ctx f).1.outline.Every P := by
  obtain ⟨hspan, hname, hbody⟩ := Function.every_outline.1 h
  exact Function.every_outline.2 ⟨hspan, hname, (placed_planBody ctx hbody).value⟩

/-- Planning keeps the places of functions, and finds faults at parts of the program. -/
theorem placed_planCleanup {p : Program} (h : p.Placed P) :
    (∀ f ∈ (p.planCleanup ctx).1.program.functions, f.outline.Every P) ∧
      ∀ e ∈ (p.planCleanup ctx).2, e.Placed P := by
  constructor
  · intro planned hplanned
    obtain ⟨x, hx, rfl⟩ := mem_map.1 hplanned
    obtain ⟨f, hf, rfl⟩ := mem_map.1 hx
    exact every_planFunction ctx (h.functions f hf)
  · intro e he
    rw [errors_planCleanup, mem_flatMap] at he
    obtain ⟨body, hbody, he⟩ := he
    refine (placed_planBody ctx ?_).errors e he
    rcases mem_append.1 hbody with hbody | hbody
    · exact h.ctorBlocks hbody
    · obtain ⟨f, hf, rfl⟩ := mem_map.1 hbody
      exact (Function.every_outline.1 (h.functions f hf)).2.2

end Cleanup

section Diagnostics

variable {s : Source} {o : Options}

/-- The anchors of a diagnostic are those of spans that point into the text. -/
def Diagnostic.AnchoredIn (s : Source) (d : Diagnostic) : Prop :=
  ∀ a ∈ d.anchors, ∃ span : Span, span.Points s.text ∧ a = Anchor.ofSpan s span

theorem Diagnostic.anchoredIn_of_span {d : Diagnostic} {span : Span} (h : span.Points s.text)
    (hd : d.anchors = [Anchor.ofSpan s span]) : d.AnchoredIn s := by
  unfold AnchoredIn
  rw [hd]
  exact forall_mem_singleton.2 ⟨span, h, rfl⟩

theorem CleanupError.anchoredIn {e : CleanupError} (h : e.Placed (Span.Shows s.text)) :
    (e.toDiagnostic s).AnchoredIn s := by
  intro a ha
  obtain ⟨⟨span, note⟩, hplace, rfl⟩ := mem_map.1 ha
  exact ⟨span, .inl (h _ (Option.mem_toList.1 hplace)), rfl⟩

theorem Artifacts.anchored_deny {ds : Diagnostics} (h : ∀ d ∈ ds, d.AnchoredIn s) :
    ∀ d ∈ deny o ds, d.AnchoredIn s :=
  forall_deny (fun _ hd => hd) h

theorem Code.anchored_emitProgram {p : Program}
    (h : ∀ f ∈ p.functions, f.outline.Every (Span.Shows s.text)) {ctx : Context}
    {options : LowerOptions} {found : Diagnostics}
    (hfound : emitProgram ctx options s p = .error found) : ∀ d ∈ found, d.AnchoredIn s := by
  unfold emitProgram at hfound
  dsimp only at hfound
  split at hfound
  · split at hfound
    · contradiction
    · obtain rfl := Except.error.inj hfound
      exact forall_mem_singleton.2 nofun
  · obtain rfl := Except.error.inj hfound
    refine forall_mem_map.2 fun e he => ?_
    exact Diagnostic.anchoredIn_of_span (.inl (errors_lowerProgram h ctx options _ e he)) rfl

/-- The parts of a parsed program show some of its text. -/
theorem placed_parseProgram (text : List Char) :
    (parseProgram (tokens text)).1.Placed (Span.Shows text) := by
  have hparts (o : Outline) (ho : o ∈ (parseProgram (tokens text)).1.outline.parts) :=
    (inRow_parseProgram text).1.every_shows ho
  refine ⟨fun c hc => hparts _ ?_, fun f hf => hparts _ ?_⟩
  · exact mem_merge.2 (.inl (mem_map_of_mem hc))
  · exact mem_merge.2 (.inr (mem_map_of_mem hf))

theorem Artifacts.anchored_ofSource : ∀ d ∈ (ofSource o s).diagnostics, d.AnchoredIn s := by
  intro d hd
  have hprogram : s.program.Placed (Span.Shows s.text) := placed_parseProgram s.text
  have hplanned := placed_planCleanup s.context hprogram
  have hreported := (ends_ofSource o s).reported d hd
  clear hd
  induction hreported with
  | scan he => exact Diagnostic.anchoredIn_of_span (.inl (shows_scanErrors he)) rfl
  | parse he => exact Diagnostic.anchoredIn_of_span ((inRow_parseProgram s.text).2 _ he) rfl
  | check he =>
    have hspan := Program.errors_check (fun _ _ => Span.Shows.join) hprogram _ he
    exact Diagnostic.anchoredIn_of_span (.inl hspan) rfl
  | cleanup he => exact CleanupError.anchoredIn (hplanned.2 _ he)
  | emit _ hemit hd => exact Code.anchored_emitProgram hplanned.1 hemit _ hd
  | escalated _ ih => exact ih

/-- Whatever the text and the options, every anchor of every diagnostic stands at a word of the
text: its span is that of the word, its lexeme is the word, and its position counts the lines
before the word and the bytes before it on its line.  The word is empty only at the end of the
text. -/
theorem diagnostics_anchored (o : Options) (name : String) (text : List Char) :
    ∀ d ∈ (compileText o name text).diagnostics, ∀ a ∈ d.anchors,
      ∃ before word after, text = before ++ word ++ after ∧
        a.span = ⟨byteLength before, byteLength word⟩ ∧
        a.lexeme = String.ofList word ∧
        (word = [] → after = []) ∧
        a.position =
          { file := 0
            line := before.count '\n' + 1
            column := byteLength (lastLine before) + 1
            offset := byteLength before } := by
  intro d hd a ha
  have hanchored : d.AnchoredIn (Source.ofText 0 name text) :=
    Artifacts.anchored_deny Artifacts.anchored_ofSource d hd
  obtain ⟨span, hpoints, rfl⟩ := hanchored a ha
  obtain ⟨before, word, after, htext, hspan, hempty⟩ := hpoints.exists_word
  refine ⟨before, word, after, htext, hspan, ?_, hempty, ?_⟩
  · rw [Anchor.ofSpan_of_marks ⟨before, after, htext, hspan⟩]
  · rw [Anchor.ofSpan_of_marks ⟨before, after, htext, hspan⟩, hspan]
    exact Source.position_eq _ (htext.trans (List.append_assoc _ _ _))

/-- A body that is not closed, with a fault behind a character of two bytes. -/
def openBody : List Char :=
  "fn main() \x7b\n  print(\"é\"); y = 1;".toList

theorem diagnostics_anchored_openBody :
    ∃ d ∈ (compileText {} "open" openBody).diagnostics, ∃ a ∈ d.anchors,
      (a.lexeme = "y" ∧ a.position.line = 2 ∧ a.position.column = 16) ∧
        ∃ before word after, openBody = before ++ word ++ after ∧
          a.span = ⟨byteLength before, byteLength word⟩ ∧ a.lexeme = String.ofList word := by
  have hfound : ∃ d ∈ (compileText {} "open" openBody).diagnostics, ∃ a ∈ d.anchors,
      a.lexeme = "y" ∧ a.position.line = 2 ∧ a.position.column = 16 := by
    decide +kernel
  obtain ⟨d, hd, a, ha, hat⟩ := hfound
  obtain ⟨before, word, after, htext, hspan, hlexeme, -⟩ :=
    diagnostics_anchored {} "open" openBody d hd a ha
  exact ⟨d, hd, a, ha, hat, before, word, after, htext, hspan, hlexeme⟩

end Diagnostics

end DeferLang
