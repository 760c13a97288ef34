import DeferLang.Proofs.ProgramRounds

/-!
# Numbers and errors are paid for

What a whole program gives out and reports is paid for by the tokens it is read from
(`Parser.programFrom_paid`); hence no number is given out twice, and there are no more
numbers than tokens.
-/

namespace DeferLang

namespace Parser

variable {I : Prop} {c final : Cursor} {ids : List NodeId}

/-- Whether parsing ends at a cursor: with the input, or where nesting is too deep. -/
def Ended (c : Cursor) : Prop :=
  c.atEnd = true ∨ ∃ e ∈ c.errors.getLast?, e.fault = .nestingTooDeep

theorem StopsAt.ended (h : StopsAt I c final) : Ended final := by
  cases h with
  | atEnd h => exact .inl h
  | tooDeep _ hdeep _ => exact .inr ⟨_, List.getLast?_concat, hdeep⟩

/-- Nesting is too deep only behind the keyword of an item, which pays for the report. -/
theorem StopsAt.paid (h : StopsAt I c final) :
    c.Leads final ∧ final.weight ≤ c.weight ∧ final.load ≤ c.load := by
  cases h with
  | atEnd => exact ⟨.refl c, Nat.le_refl _, Nat.le_refl _⟩
  | tooDeep hfail _ hpaid =>
    refine ⟨hfail.leads.trans (Cursor.leads_report _ _), hfail.numbers, ?_⟩
    exact Nat.le_trans (Nat.le_of_eq (Cursor.load_report _ _)) hpaid

/-- What a program gives out and reports is paid for.  With a round for every token, it is read up
to where parsing ends. -/
theorem programFrom_paid (rounds : Nat) (hrising : Rising ids c.nextId) :
    (c.Leads (programFrom rounds c).2 ∧
      Rising (ids ++ (programFrom rounds c).1.flatMap Item.ids) (programFrom rounds c).2.nextId ∧
      (programFrom rounds c).2.weight ≤ c.weight ∧ (programFrom rounds c).2.load ≤ c.load) ∧
      (c.rest.length ≤ rounds → Ended (programFrom rounds c).2) := by
  obtain ⟨d, ks, hat, hends, hstops⟩ := programFrom_at rounds c
  refine ⟨?_, fun hrounds => (hstops hrounds).ended⟩
  have hpaid : d.Leads (programFrom rounds c).2 ∧ (programFrom rounds c).2.weight ≤ d.weight ∧
      (programFrom rounds c).2.load ≤ d.load := by
    rcases hends with hd | hstop
    · rw [hd]
      exact ⟨.refl d, Nat.le_refl _, Nat.le_refl _⟩
    · exact hstop.paid
  refine ⟨hat.leads.trans hpaid.1, ?_, Nat.le_trans hpaid.2.1 hat.numbers,
    Nat.le_trans hpaid.2.2 hat.errors⟩
  exact (hrising.append hat.rising.1 hat.leads.nextId hat.rising.2).mono hpaid.1.nextId

/-- Up to every item, and after the last one, no more numbers are given out than tokens are read. -/
theorem spends_programFrom (rounds : Nat) (c : Cursor) :
    (programFrom rounds c).2.rest <:+ c.rest ∧ (programFrom rounds c).2.weight ≤ c.weight := by
  obtain ⟨⟨hleads, -, hweight, -⟩, -⟩ := programFrom_paid rounds (Rising.nil c.nextId)
  exact ⟨hleads.consumes.suffix, hweight⟩

end Parser

/-- The numbers of a parsed program are those of its items.  Classes and functions are told apart,
which changes only the order of the numbers. -/
theorem perm_ids_parseProgram (tokens : List Token) :
    ((parseProgram tokens).1.ids).Perm
      ((Parser.programFrom tokens.length { rest := tokens }).1.flatMap Parser.Item.ids) := by
  change ((List.filterMap Parser.Item.classDef?
      (Parser.programFrom tokens.length { rest := tokens }).1).flatMap ClassDef.ids ++
    (List.filterMap Parser.Item.function?
      (Parser.programFrom tokens.length { rest := tokens }).1).flatMap Function.ids).Perm _
  generalize (Parser.programFrom tokens.length { rest := tokens }).1 = items
  induction items with
  | nil => exact List.Perm.refl _
  | cons i items ih =>
    rw [List.flatMap_cons]
    cases i with
    | ofClass c =>
      simp only [List.filterMap_cons, Parser.Item.classDef?, Parser.Item.function?,
        List.flatMap_cons, Parser.Item.ids, List.append_assoc]
      exact ih.append_left _
    | ofFunction f =>
      simp only [List.filterMap_cons, Parser.Item.classDef?, Parser.Item.function?,
        List.flatMap_cons, Parser.Item.ids]
      refine (List.perm_append_comm_assoc _ _ _).trans ?_
      exact ih.append_left _

/-- The numbers of the items of a program ascend, below the next free one. -/
theorem rising_parseProgram (tokens : List Token) :
    Rising ((Parser.programFrom tokens.length { rest := tokens }).1.flatMap Parser.Item.ids)
      (Parser.programFrom tokens.length { rest := tokens }).2.nextId :=
  (Parser.programFrom_paid (c := { rest := tokens }) tokens.length (Rising.nil 0)).1.2.1

/-- All numbers in a parsed program differ, also after errors. -/
theorem nodup_ids_parseProgram (tokens : List Token) : (parseProgram tokens).1.ids.Nodup :=
  (perm_ids_parseProgram tokens).nodup_iff.2 (rising_parseProgram tokens).nodup

/-- Whatever tokens a program is parsed from, its node numbers differ, and they lie below the next
free number.  After every item, parsed or dropped, no more numbers are given out than tokens are
consumed; so a counter of 32 bits suffices for as many tokens as it can count. -/
theorem node_numbers_paid_for (tokens : List Token) :
    let after (rounds : Nat) : Cursor := (Parser.programFrom rounds { rest := tokens }).2
    (parseProgram tokens).1.ids.Nodup ∧
      (∀ id ∈ (parseProgram tokens).1.ids, id < (after tokens.length).nextId) ∧
      (∀ rounds, ∃ consumed, tokens = consumed ++ (after rounds).rest ∧
        (after rounds).nextId ≤ consumed.length) ∧
      (tokens.length < UInt32.size → ∀ rounds, (after rounds).nextId < UInt32.size) := by
  have hpaid (rounds : Nat) : ∃ consumed,
      tokens = consumed ++ (Parser.programFrom rounds { rest := tokens }).2.rest ∧
        (Parser.programFrom rounds { rest := tokens }).2.nextId ≤ consumed.length := by
    obtain ⟨⟨consumed, hsplit⟩, hweight⟩ := Parser.spends_programFrom rounds { rest := tokens }
    refine ⟨consumed, hsplit.symm, ?_⟩
    have hlength := congrArg List.length hsplit
    rw [List.length_append] at hlength
    have hstart : Cursor.weight { rest := tokens } = tokens.length := Nat.zero_add _
    rw [hstart, ← hlength] at hweight
    exact Nat.le_of_add_le_add_right hweight
  refine ⟨nodup_ids_parseProgram tokens, fun id hid => ?_, hpaid, fun hfew rounds => ?_⟩
  · exact (rising_parseProgram tokens).2 id ((perm_ids_parseProgram tokens).mem_iff.1 hid)
  · obtain ⟨consumed, hsplit, hle⟩ := hpaid rounds
    have hlength := congrArg List.length hsplit
    rw [List.length_append] at hlength
    exact Nat.lt_of_le_of_lt (Nat.le_trans hle (by omega)) hfew

end DeferLang
