import DeferLang.Proofs.BalancedParsers

/-!
# Programs are read item by item

A round of the loop over the items of a program reads one item, or reports and skips
what is none (`Parser.itemRound`).  A whole program keeps its books as its items do,
up to where parsing ends: with the input, or with nesting that is too deep
(`Parser.programOver_at`).
-/

namespace DeferLang

namespace Parser

open Grammar
open Outline (Row InRow leaf)

variable {α : Type} {I : Prop} {c : Cursor}

section Items

variable {β : Type} {text : List Char}

/-- The numbers in a function or class. -/
def Item.ids : Item → List NodeId
  | .ofFunction f => f.ids
  | .ofClass c => c.ids

def Item.outline : Item → Outline
  | .ofFunction f => f.outline
  | .ofClass c => c.outline

abbrev items : Category Item :=
  ⟨ItemOf, Item.ids, fun i => [i.outline], 0, 1, 1, False⟩

/-- From a cursor, a parser gives a result of a category.  Where nesting is too deep, a token is
left to pay for the report. -/
def BalancedAt (I : Prop) (c : Cursor) (A : Category α) (m : Parser α) : Prop :=
  Ends m c (fun a c' => ∃ ks, At I c (A.ledger a ks) c') fun e c' =>
    FailedAt I c 0 e c' ∧ (e.fault = .nestingTooDeep → c'.load < c.load)

/-- What follows a keyword that stands there fails only after the keyword is read. -/
theorem balancedAt_keyword {A : Category β} {k : Span → Parser β} {word : Keyword}
    (hkind : c.kind? = some (.keyword word))
    (hk : ∀ span, Follows I c ⟨[.keyword word], True, [], 1, 1, 1, [leaf span], True⟩ (k span)
      A.ledger) : BalancedAt I c A (expectKeyword word >>= k) := by
  have hread : At I c ⟨[.keyword word], True, [], 1, 1, 1, [leaf c.span], True⟩ c.advance :=
    .read hkind (.inl rfl) (by nofun)
  refine .token hkind ((hk c.span c.advance hread (.inl Nat.one_pos)).mono (fun _ _ hok => hok) ?_)
  exact fun e c' hfail =>
    ⟨hfail.ofPaid Nat.one_pos, fun _ => hfail.errors.resolve_right (by simp)⟩

theorem BalancedAt.peek {A : Category β} {k : Option TokenKind → Parser β}
    (h : BalancedAt I c A (k c.kind?)) : BalancedAt I c A (kind? >>= k) :=
  h

theorem balancedAt_function (hkind : c.kind? = some (.keyword .fnKw)) :
    BalancedAt I c items (Item.ofFunction <$> function) := by
  unfold function functionOver
  rw [map_bind]
  refine balancedAt_keyword hkind fun start c' => ?_
  refine FollowsAt.map (?_ : FollowsAt I c c' _ _ (Category.mk
    (fun ks f => ItemOf ks (.ofFunction f)) Function.ids (fun f => [f.outline]) 0 1 1
    False).ledger) fun _ _ _ h => h
  refine .of (.withId (by decide) fun id => .name fun name => .skip (.inl rfl) fun _ => ?_)
  refine .ifAt (fun c hkind => .drop hkind (.inl rfl) ?_) (.fail _)
  refine (balanced_block maxNesting).bindAt (by decide) fun body ks => ?_
  refine .pure rfl (fun h => .function id _ name h.2) rfl ?_ (by decide) nofun
  exact .join (leaf start) [name.outline] (outlineOfBlock body) rfl (by simp)
    (List.sublist_cons_self _ _)

theorem merged_members {members : List Member} {start stop : Nat}
    (h : InRow text (members.map Member.outline) start stop) :
    Outline.merged ((members.filterMap Member.field?).map FieldDef.outline)
      ((members.filterMap Member.ctor?).map CtorDecl.outline) = members.map Member.outline := by
  refine h.merged_filterMap fun m => ?_
  cases m with
  | field f => exact .inl ⟨f, rfl, rfl, rfl⟩
  | ctor d => exact .inr ⟨d, rfl, rfl, rfl⟩

theorem balancedAt_classDef (hout : ¬I) (hkind : c.kind? = some (.keyword .classKw)) :
    BalancedAt I c items (Item.ofClass <$> classDef) := by
  have hmember (name : String) : Balanced I (members name) (member name) :=
    balanced_memberOver (balanced_ctorBodyOver (balanced_block maxNesting))
  have hids (ms : List Member) (id : NodeId) (span : Span) (name : Ident) :
      [id] ++ ms.flatMap Member.ids = ClassDef.ids
        ⟨id, span, name, ms.filterMap Member.field?, ms.filterMap Member.ctor?⟩ := by
    have hctors : (ms.filterMap Member.ctor?).flatMap CtorDecl.ids = ms.flatMap Member.ids := by
      rw [List.filterMap_eq_flatMap_toList, List.flatMap_assoc]
      rfl
    rw [ClassDef.ids, hctors, List.singleton_append]
  -- the last token is a brace or a semicolon behind it
  have hrow (ms : List Member) (id : NodeId) (start stop : Span) (name : Ident) :
      Lays ([leaf start] ++ [name.outline] ++ ms.flatMap (fun m => [m.outline]) ++ [leaf stop])
        [ClassDef.outline ⟨id, Span.join start stop, name, ms.filterMap Member.field?,
          ms.filterMap Member.ctor?⟩] := by
    intro text first edge h
    have hall : Row text ([] ++ leaf start ::
        (name.outline :: ms.map Member.outline ++ [leaf stop])) first edge := by
      simpa [List.map_eq_flatMap] using h
    obtain ⟨_, -, -, -, hrest⟩ := hall.inRow.exists_mid
    obtain ⟨_, ⟨-, -, hmembers⟩, -⟩ := hrest.exists_mid
    rw [ClassDef.outline, merged_members hmembers]
    exact hall.join ((List.sublist_append_left _ _).cons _)
  unfold classDef classDefOver
  rw [map_bind]
  refine balancedAt_keyword hkind fun start c' => ?_
  refine FollowsAt.map (?_ : FollowsAt I c c' _ _ (Category.mk (fun ks d => ItemOf ks (.ofClass d))
    ClassDef.ids (fun d => [d.outline]) 0 1 1 False).ledger) fun _ _ _ h => h
  refine .of (.withId (by decide) fun id => .name fun name =>
    .skip (.inr ⟨by decide, hout⟩) fun _ => ?_)
  refine .withTokensLeft fun rounds => (follows_itemsFrom hout (hmember name.name) rounds).bind
    (fun _ _ => Nat.succ_pos _) fun ms ks => .token (.inr ⟨by decide, hout⟩) fun close => ?_
  refine .ifAt (fun c hkind => .withSpan (.read hkind (.inl rfl) (.of ?_))) ?_
  · refine .pure (by simp) (fun h => .classDef id _ name h.2 (.inr rfl)) (hids ms _ _ _) ?_
      (by decide) False.elim
    refine fun text first edge h => hrow ms id start c.span name text first edge (h.sublist ?_)
    exact (List.sublist_append_left _ _).append (.refl _)
  · exact .pure (by simp) (fun h => .classDef id _ name h.2 (.inl rfl)) (hids ms _ _ _)
      (hrow ms id start close name) (by decide) False.elim

theorem balancedAt_item (hout : ¬I) : BalancedAt I c items item := by
  refine .peek ?_
  split
  · exact balancedAt_function ‹_›
  · exact balancedAt_classDef hout ‹_›
  · have hfail : Follows I c .empty (Parser.fail .expectedItem) items.ledger := .fail _
    exact ⟨hfail c .empty (.inr ⟨rfl, rfl⟩), nofun⟩

end Items

section Rounds

variable {item : Parser Item}

abbrev programs : Category (List Item) :=
  ⟨Many ItemOf, (·.flatMap Item.ids), (·.map Item.outline), 0, 0, 0, False⟩

/-- How a program can end at a cursor: with the input, or where nesting is too deep. -/
inductive StopsAt (I : Prop) (c : Cursor) : Cursor → Prop
  | atEnd (h : c.atEnd = true) : StopsAt I c c
  | tooDeep {e : ParseError} {c' : Cursor} (hfail : FailedAt I c 0 e c')
      (hdeep : e.fault = .nestingTooDeep) (hpaid : c'.load < c.load) : StopsAt I c (c'.report e)

/-- The loop over the items of a program finds some in a round and goes on at another cursor. -/
def GoesOn (item : Parser Item) (c : Cursor) (found : List Item) (c' : Cursor) : Prop :=
  ∀ rounds, programOver item (rounds + 1) c =
    (found ++ (programOver item rounds c').1, (programOver item rounds c').2)

/-- Nothing that is skipped is found. -/
theorem At.skipItem {e : ParseError} {c' : Cursor} (hout : ¬I) (hfail : FailedAt I c 0 e c')
    (hgoesOn : ¬c.atEnd = true) :
    let reported := c'.report e
    let next := if reported.rest.length = c.rest.length then reported.advance else reported
    At I c (programs.ledger [] []) next.skipItem ∧ next.skipItem.rest.length < c.rest.length := by
  intro reported next
  have hskip := Cursor.leads_skipItem next
  have hdropped (hnext : Skips reported next.skipItem) (hload : next.skipItem.load ≤ c.load) :
      At I c (programs.ledger [] []) next.skipItem :=
    (At.empty.dropped hout hfail hnext hload).mono rfl False.elim rfl
      ⟨Nat.le_refl _, Nat.le_refl _, Nat.le_refl _⟩ (.refl _) False.elim
  have hreport : reported.load = c'.load + 1 := Cursor.load_report c' e
  have hskipLoad : next.skipItem.load ≤ next.load := Cursor.load_le_of_skip hskip rfl
  by_cases hlength : reported.rest.length = c.rest.length
  · -- nothing was read, so that a token is dropped before the rest is skipped
    have hnext : next = reported.advance := if_pos hlength
    obtain ⟨-, hrest, herrors⟩ := hfail.errors.resolve_left fun hless =>
      Nat.ne_of_lt (hfail.leads.length_lt hless) hlength
    have hload := Cursor.load_congr hrest herrors
    obtain ⟨kind, hkind, hne⟩ := Cursor.exists_kind_of_not_atEnd hgoesOn
    have hkind' : reported.kind? = some kind := by
      rw [← hkind, Cursor.kind?, Cursor.kind?, ← hrest]
      rfl
    obtain ⟨hread, -, hreadLoad⟩ := Cursor.leads_advance_of_kind hkind' hne
    have hshorter := hread.length_lt (Nat.lt_of_succ_le (Nat.le_of_eq hreadLoad))
    rw [hnext] at hskip hskipLoad hdropped ⊢
    refine ⟨hdropped ⟨hread.trans hskip, reported.errors_advance, reported.nextId_advance,
      fun text hc => ?_⟩ (by omega), ?_⟩
    · obtain ⟨hc', hedge⟩ := hc.advance
      obtain ⟨hc'', hedge'⟩ := hc'.skipItem
      exact ⟨hc'', hedge.trans hedge'⟩
    · exact Nat.lt_of_le_of_lt hskip.length_le (hlength ▸ hshorter)
  · have hnext : next = reported := if_neg hlength
    have hless := hfail.errors.resolve_right fun hsame => hlength (congrArg List.length hsame.2.1)
    rw [hnext] at hskip hskipLoad hdropped ⊢
    refine ⟨hdropped ⟨hskip, rfl, rfl, fun text hc => hc.skipItem⟩ (by omega), ?_⟩
    exact Nat.lt_of_le_of_lt hskip.length_le (hfail.leads.length_lt hless)

/-- A round ends the program, or reads a token. -/
theorem programOver_round (hitem : BalancedAt I c items item) (hout : ¬I) :
    (∃ final, StopsAt I c final ∧ ∀ rounds, programOver item (rounds + 1) c = ([], final)) ∨
    ∃ found c' ks, At I c (programs.ledger found ks) c' ∧ c'.rest.length < c.rest.length ∧
      GoesOn item c found c' := by
  by_cases hend : c.atEnd = true
  · refine .inl ⟨c, .atEnd hend, fun rounds => ?_⟩
    rw [programOver, if_pos hend]
  unfold BalancedAt Ends at hitem
  cases hcase : item c with
  | ok i c' =>
    rw [hcase] at hitem
    obtain ⟨ks, hat⟩ := hitem
    refine .inr ⟨[i], c', ks, hat.mono rfl (fun h => ?_) ?_
      ⟨Nat.zero_le _, Nat.zero_le _, Nat.zero_le _⟩ (.refl _) id, Nat.lt_of_succ_le hat.reads,
      fun rounds => ?_⟩
    · exact List.append_nil ks ▸ .cons h .nil
    · exact (List.flatMap_singleton _ _).symm
    · rw [programOver, if_neg hend, hcase]
      rfl
  | error e c' =>
    rw [hcase] at hitem
    obtain ⟨hfail, hpaid⟩ := hitem
    by_cases hdeep : e.fault = .nestingTooDeep
    · refine .inl ⟨c'.report e, .tooDeep hfail hdeep (hpaid hdeep), fun rounds => ?_⟩
      rw [programOver, if_neg hend, hcase]
      exact if_pos (ParseFault.isFatal_iff.2 hdeep)
    · obtain ⟨hat, hshorter⟩ := At.skipItem hout hfail hend
      refine .inr ⟨[], _, [], hat, hshorter, fun rounds => ?_⟩
      rw [programOver, if_neg hend, hcase]
      dsimp only
      rw [if_neg (mt ParseFault.isFatal_iff.1 hdeep)]
      split <;> rfl

/-- A program keeps the books of its items, up to where parsing ends.  With a round for every token
it ends only there. -/
theorem programOver_at (hitem : ∀ c, BalancedAt I c items item) (hout : ¬I) (rounds : Nat)
    (c : Cursor) :
    ∃ d ks, At I c (programs.ledger (programOver item rounds c).1 ks) d ∧
      ((programOver item rounds c).2 = d ∨ StopsAt I d (programOver item rounds c).2) ∧
      (c.rest.length ≤ rounds → StopsAt I d (programOver item rounds c).2) := by
  have hempty (c : Cursor) : At I c (programs.ledger [] []) c :=
    At.empty.mono rfl (fun _ => .nil) rfl (by decide) (.refl _) False.elim
  induction rounds generalizing c with
  | zero =>
    refine ⟨c, [], hempty c, .inl rfl, fun hrounds => .atEnd ?_⟩
    have hrest : c.rest = [] := List.eq_nil_of_length_eq_zero (Nat.le_zero.1 hrounds)
    rw [Cursor.atEnd, Cursor.kind?, hrest]
    rfl
  | succ rounds ih =>
    rcases programOver_round (hitem c) hout with
      ⟨final, hstops, hfinal⟩ | ⟨found, c', ks, hat, hshorter, hnext⟩
    · rw [hfinal]
      exact ⟨c, [], hempty c, .inr hstops, fun _ => hstops⟩
    · obtain ⟨d, ks', hat', hends, hstops⟩ := ih c'
      rw [hnext]
      refine ⟨d, ks ++ ks', ?_, hends, fun hrounds => hstops (by omega)⟩
      refine (hat.append hat').mono rfl (fun h => h.1.append h.2) List.flatMap_append.symm
        ⟨Nat.zero_le _, Nat.zero_le _, Nat.zero_le _⟩ (.of_eq List.map_append.symm) False.elim

theorem programFrom_at (rounds : Nat) (c : Cursor) :
    ∃ d ks, At False c (programs.ledger (programFrom rounds c).1 ks) d ∧
      ((programFrom rounds c).2 = d ∨ StopsAt False d (programFrom rounds c).2) ∧
      (c.rest.length ≤ rounds → StopsAt False d (programFrom rounds c).2) :=
  programOver_at (fun _ => balancedAt_item not_false) not_false rounds c

end Rounds

end Parser

end DeferLang
