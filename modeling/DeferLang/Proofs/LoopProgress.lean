import DeferLang.Proofs.BraceMatching
import DeferLang.Proofs.Numbering

/-!
# Parsing goes on in every round

The loops of the parser count their rounds down from the tokens left.  A round that
does not end its loop reads a token, so the count is never what ends a loop
(`RoundsSuffice`), and parsing ends where the input ends or nesting is too deep.
Together with what errors cost, this bounds what a program of any tokens can report.
-/

namespace DeferLang

/-- A loop that counts its rounds does the same with every count that has a round for each token
left. -/
def RoundsSuffice {β : Type} (loop : Nat → Cursor → β) : Prop :=
  ∀ (c : Cursor) (rounds rounds' : Nat), c.rest.length ≤ rounds → c.rest.length ≤ rounds' →
    loop rounds c = loop rounds' c

/-- Rounds suffice if each of them ends the loop, as without a round, or leaves fewer tokens to the
next.  The loop carries `i` from round to round. -/
theorem roundsSuffice_of_round {ι β : Type} (loop : ι → Nat → Cursor → β)
    (hround : ∀ i c, (∀ rounds, loop i (rounds + 1) c = loop i 0 c) ∨
      c.rest ≠ [] ∧ ∀ rounds rounds',
        (∀ i' c', c'.rest.length < c.rest.length → loop i' rounds c' = loop i' rounds' c') →
          loop i (rounds + 1) c = loop i (rounds' + 1) c) (i : ι) :
    RoundsSuffice (loop i) := by
  have hends {i : ι} {c : Cursor} (h : ∀ rounds, loop i (rounds + 1) c = loop i 0 c)
      (rounds : Nat) : loop i rounds c = loop i 0 c := by
    cases rounds with
    | zero => rfl
    | succ rounds => exact h rounds
  intro c rounds rounds' hrounds hrounds'
  -- The next round has one round less to go, and at least one token less to read.
  induction rounds generalizing i c rounds' with
  | zero =>
    -- without a round there is no token left, and only a loop that ends can start here
    rcases hround i c with hstop | ⟨hne, -⟩
    · exact (hends hstop _).trans (hends hstop _).symm
    · exact absurd (List.length_pos_iff.2 hne) (by omega)
  | succ rounds ih =>
    rcases hround i c with hstop | ⟨hne, hgoesOn⟩
    · exact (hends hstop _).trans (hends hstop _).symm
    · cases rounds' with
      | zero => exact absurd (List.length_pos_iff.2 hne) (by omega)
      | succ rounds' =>
        refine hgoesOn rounds rounds' fun i' c' hshorter => ?_
        exact ih i' c' rounds' (by omega) (by omega)

namespace Cursor

variable {c : Cursor} {kind : TokenKind}

theorem rest_ne_nil (hkind : c.kind? = some kind) : c.rest ≠ [] := by
  obtain ⟨t, ts, hrest, -⟩ := exists_of_kind hkind
  rw [hrest]
  exact List.cons_ne_nil t ts

theorem length_advance (hkind : c.kind? = some kind) (hne : kind ≠ .eof) :
    c.advance.rest.length < c.rest.length := by
  obtain ⟨hleads, -, hload⟩ := leads_advance_of_kind hkind hne
  exact hleads.length_lt (by omega)

end Cursor

namespace Parser

variable {α β : Type}

section Rounds

variable {c : Cursor} {kind : TokenKind} {m m' : Parser α} {k : α → Parser β}

theorem peek_apply {k : Option TokenKind → Parser β} : (kind? >>= k) c = k c.kind? c :=
  rfl

theorem isAt_apply {k : Bool → Parser β} :
    (isAt kind >>= k) c = k (decide (c.kind? = some kind)) c :=
  rfl

theorem bind_congr_first (h : m c = m' c) : (m >>= k) c = (m' >>= k) c := by
  change EStateM.bind m k c = EStateM.bind m' k c
  unfold EStateM.bind
  rw [h]

/-- A parser of expressions keeps its books, of whatever language they are. -/
def Earns (m : Parser Expr) (made : Expr → List NodeId) : Prop :=
  Balanced False ⟨fun _ _ => True, made, fun e => [e.outline], 0, 1, 1, True⟩ m

theorem Earns.of_balanced {L : Language Expr} {m : Parser Expr}
    (h : Balanced False (exprs L) m) : Earns m Expr.ids := by
  refine fun c₀ c => (h c₀ c).mono fun e ks c' _ hat => ⟨ks, ?_⟩
  exact hat.mono rfl (fun _ => trivial) rfl ⟨Nat.le_refl _, Nat.le_refl _, Nat.le_refl _⟩
    (.refl _) id

theorem earns_expr (levels : Nat) : Earns (expr levels) Expr.ids :=
  .of_balanced (balanced_expr levels)

theorem earns_accessed {inner : Parser Expr} (hinner : Earns inner Expr.ids) :
    Earns (accessed inner) Expr.ids :=
  .of_balanced (balanced_accessed hinner)

theorem earns_chain {op? : TokenKind → Option BinOp} {operand : Parser Expr} (hop : op? .eof = none)
    (hoperand : Earns operand Expr.ids) : Earns (chain op? operand) Expr.ids := by
  refine balanced_chainOf (fun kind op h => .inr ⟨?_, not_false⟩)
    (fun _ _ _ _ _ _ => trivial) (fun _ _ _ => trivial) hoperand
  rintro rfl
  rw [hop] at h
  contradiction

/-- Whatever a parser reads, no tokens come back. -/
theorem Balanced.ends_leads {I : Prop} {A : Category α} {m : Parser α} (hm : Balanced I A m) :
    Ends m c (fun _ c' => c.Leads c' ∧ c'.rest.length + A.reads ≤ c.rest.length)
      fun _ c' => c.Leads c' := by
  refine (hm c c .empty (.inr ⟨rfl, rfl⟩)).mono ?_ fun _ _ h => h.leads
  rintro a c' ⟨ks, hat⟩
  exact ⟨hat.leads, hat.reads⟩

theorem Earns.ends_length {m : Parser Expr} {made : Expr → List NodeId} (hm : Earns m made)
    (c : Cursor) : Ends m c (fun _ c' => c'.rest.length ≤ c.rest.length) fun _ _ => True :=
  hm.ends_leads.mono (fun _ _ h => h.1.length_le) fun _ _ _ => trivial

theorem roundsSuffice_chainFrom {op? : TokenKind → Option BinOp} {operand : Parser Expr}
    (hop : op? .eof = none) (hoperand : Earns operand Expr.ids) (left : Expr) :
    RoundsSuffice fun rounds => chainFrom op? operand rounds left := by
  refine roundsSuffice_of_round (fun left rounds => chainFrom op? operand rounds left)
    (fun left c => ?_) left
  cases hfound : c.kind?.bind op? with
  | none =>
    refine .inl fun rounds => ?_
    unfold chainFrom
    rw [peek_apply, hfound]
  | some op =>
    obtain ⟨kind, hkind, hkindOp⟩ := Option.bind_eq_some_iff.1 hfound
    have hne : kind ≠ .eof := by
      rintro rfl
      rw [hop] at hkindOp
      contradiction
    refine .inr ⟨Cursor.rest_ne_nil hkind, fun rounds rounds' hnext => ?_⟩
    rw [chainFrom, chainFrom, peek_apply, peek_apply, hfound]
    have hread := Cursor.length_advance hkind hne
    refine Ends.bind_eq (m := operand) ((hoperand.ends_length c.advance).mono
      (fun right c' hlength => ?_) fun _ _ _ => trivial)
    exact hnext _ { c' with nextId := c'.nextId + 1 } (Nat.lt_of_le_of_lt hlength hread)

theorem ends_ident (c : Cursor) :
    Ends ident c (fun _ c' => c'.rest.length ≤ c.rest.length) fun _ _ => True := by
  refine .peek ?_
  split
  · rename_i name hkind
    exact (Cursor.leads_advance_of_kind hkind nofun).1.length_le
  · trivial

theorem roundsSuffice_fieldsFrom (base : Expr) :
    RoundsSuffice fun rounds => fieldsFrom rounds base := by
  refine roundsSuffice_of_round (fun base rounds => fieldsFrom rounds base)
    (fun base c => ?_) base
  by_cases hkind : c.kind? = some (.mark .dot)
  · refine .inr ⟨Cursor.rest_ne_nil hkind, fun rounds rounds' hnext => ?_⟩
    rw [fieldsFrom, fieldsFrom, isAtMark, isAt_apply, isAt_apply, decide_eq_true hkind]
    have hread := Cursor.length_advance hkind nofun
    refine Ends.bind_eq (m := ident) ((ends_ident c.advance).mono
      (fun name c' hlength => ?_) fun _ _ _ => trivial)
    exact hnext _ { c' with nextId := c'.nextId + 1 } (Nat.lt_of_le_of_lt hlength hread)
  · refine .inl fun rounds => ?_
    unfold fieldsFrom
    rw [isAtMark, isAt_apply, decide_eq_false hkind]
    rfl

theorem roundsSuffice_modifiersFrom : RoundsSuffice fun rounds => modifiersFrom rounds := by
  refine roundsSuffice_of_round (fun (_ : Unit) rounds => modifiersFrom rounds)
    (fun _ c => ?_) ()
  by_cases hstar : c.kind? = some (.mark .star)
  · refine .inr ⟨Cursor.rest_ne_nil hstar, fun rounds rounds' hnext => ?_⟩
    rw [modifiersFrom, modifiersFrom, peek_apply, peek_apply, hstar]
    exact bind_congr_first (hnext () c.advance (Cursor.length_advance hstar nofun))
  by_cases hamp : c.kind? = some (.mark .amp)
  · refine .inr ⟨Cursor.rest_ne_nil hamp, fun rounds rounds' hnext => ?_⟩
    rw [modifiersFrom, modifiersFrom, peek_apply, peek_apply, hamp]
    exact bind_congr_first (hnext () c.advance (Cursor.length_advance hamp nofun))
  · refine .inl fun rounds => ?_
    -- the match is on the next token, which is neither mark
    refine Ends.eq_ok (.peek ?_)
    split
    · exact absurd ‹_› hstar
    · exact absurd ‹_› hamp
    · exact ⟨rfl, rfl⟩

theorem roundsSuffice_argsFrom {expr : Parser Expr} (hexpr : Earns expr Expr.ids) :
    RoundsSuffice fun rounds => argsFrom expr rounds := by
  refine roundsSuffice_of_round (fun (_ : Unit) rounds => argsFrom expr rounds)
    (fun _ c => ?_) ()
  by_cases hkind : c.kind? = some (.mark .comma)
  · refine .inr ⟨Cursor.rest_ne_nil hkind, fun rounds rounds' hnext => ?_⟩
    rw [argsFrom, argsFrom, isAtMark, isAt_apply, isAt_apply, decide_eq_true hkind]
    have hread := Cursor.length_advance hkind nofun
    refine Ends.bind_eq (m := expr) ((hexpr.ends_length c.advance).mono
      (fun e c' hlength => ?_) fun _ _ _ => trivial)
    exact bind_congr_first (hnext () c' (Nat.lt_of_le_of_lt hlength hread))
  · refine .inl fun rounds => ?_
    unfold argsFrom
    rw [isAtMark, isAt_apply, decide_eq_false hkind]
    rfl

end Rounds

section Lists

/-- Where a list goes on, a round reads a token, whether its item can be parsed or not.  Only an
error that ends parsing is passed on. -/
def Advances (item : Parser α) : Prop :=
  ∀ c : Cursor, ¬c.IsStop →
    Ends (recovering item) c (fun _ c' => c.Leads c' ∧ c'.rest.length < c.rest.length)
      (fun e _ => e.fault.isFatal = true)

theorem advances_of_reads {item : Parser α}
    (hitem : ∀ c, Ends item c (fun _ c' => c.Leads c' ∧ c'.rest.length < c.rest.length)
      (fun _ c' => c.Leads c')) : Advances item := by
  intro c hc
  -- an item that fails may have read nothing, but then it is skipped from its first token on
  refine .recovering_or_fatal ((hitem c).mono (fun _ _ h => h) fun e c' hleads => ?_)
  split
  · assumption
  · refine ⟨?_, length_skipStatement_report e hleads.consumes.suffix hc⟩
    exact (hleads.trans (Cursor.leads_report c' e)).trans (Cursor.leads_skipStatement _)

theorem Balanced.advances {A : Category α} {item : Parser α} (hitem : Balanced False A item)
    (hreads : 0 < A.reads) : Advances item :=
  advances_of_reads fun _ => hitem.ends_leads.mono
    (fun _ _ h => ⟨h.1, Nat.lt_of_lt_of_le (Nat.lt_add_of_pos_right hreads) h.2⟩) fun _ _ h => h

theorem advances_member (className : String) : Advances (member className) :=
  Balanced.advances (balanced_memberOver (balanced_ctorBodyOver (balanced_block maxNesting)))
    Nat.one_pos

theorem advances_statement (levels : Nat) : Advances (statement (expr levels) (block levels)) :=
  Balanced.advances (balanced_statement (balanced_expr levels) (balanced_block levels))
    Nat.one_pos

theorem roundsSuffice_itemsFrom {item : Parser α} (hitem : Advances item) :
    RoundsSuffice fun rounds => itemsFrom item rounds := by
  refine roundsSuffice_of_round (fun (_ : Unit) rounds => itemsFrom item rounds)
    (fun _ c => ?_) ()
  by_cases hc : c.IsStop
  · have hstop : (decide (c.kind? = some (.mark .rbrace)) || c.atEnd) = true := by
      rwa [Bool.or_eq_true, decide_eq_true_iff]
    refine .inl fun rounds => ?_
    change (if (decide (c.kind? = some (.mark .rbrace)) || c.atEnd) = true
      then Pure.pure [] else _ : Parser (List α)) c = _
    rw [if_pos hstop]
    rfl
  · have hgoesOn : ¬(decide (c.kind? = some (.mark .rbrace)) || c.atEnd) = true := by
      rwa [Bool.or_eq_true, decide_eq_true_iff]
    have hne : c.rest ≠ [] := by
      intro hrest
      exact hc (.inr (by simp [Cursor.atEnd, Cursor.kind?, hrest]))
    refine .inr ⟨hne, fun rounds rounds' hnext => ?_⟩
    change (if (decide (c.kind? = some (.mark .rbrace)) || c.atEnd) = true
      then Pure.pure [] else _ : Parser (List α)) c =
        (if _ then Pure.pure [] else _ : Parser (List α)) c
    rw [if_neg hgoesOn, if_neg hgoesOn]
    refine Ends.bind_eq (m := recovering item) ((hitem c hc).mono
      (fun found c' h => ?_) fun _ _ _ => trivial)
    cases found with
    | none => exact hnext () c' h.2
    | some a => exact bind_congr_first (hnext () c' h.2)

end Lists

section Program

/-- One round over the items of a program. -/
theorem programFrom_cases (c : Cursor) :
    (∃ last, (last = c ∨ c.rest ≠ []) ∧ ∀ rounds, programFrom (rounds + 1) c = ([], last)) ∨
      ∃ items c', c.Leads c' ∧ c'.rest.length < c.rest.length ∧ ∀ rounds,
        programFrom (rounds + 1) c =
          (items ++ (programFrom rounds c').1, (programFrom rounds c').2) := by
  rcases programOver_round (balancedAt_item not_false) not_false with
    ⟨last, hstops, hlast⟩ | ⟨found, c', ks, hat, hshorter, hnext⟩
  · refine .inl ⟨last, ?_, hlast⟩
    cases hstops with
    | atEnd => exact .inl rfl
    | tooDeep hfail _ hpaid =>
      refine .inr (List.length_pos_iff.1 ?_)
      exact Nat.zero_lt_of_lt (hfail.leads.length_lt hpaid)
  · exact .inr ⟨found, c', hat.leads, hshorter, hnext⟩

theorem roundsSuffice_programFrom : RoundsSuffice programFrom := by
  refine roundsSuffice_of_round (fun (_ : Unit) => programFrom) (fun _ c => ?_) ()
  rcases programFrom_cases c with ⟨last, rfl | hne, hlast⟩ | ⟨found, c', -, hshorter, hnext⟩
  · exact .inl hlast
  · refine .inr ⟨hne, fun rounds rounds' _ => ?_⟩
    rw [hlast, hlast]
  · refine .inr ⟨fun hrest => ?_, fun rounds rounds' hrounds => ?_⟩
    · rw [hrest] at hshorter
      exact Nat.not_lt_zero _ hshorter
    · rw [hnext, hnext, hrounds () c' hshorter]

/-- A round over the items of a program ends the program, or reads a token. -/
theorem programFrom_round (c : Cursor) :
    (∃ last, ∀ rounds, programFrom (rounds + 1) c = ([], last)) ∨
      ∃ items c', c.Leads c' ∧ c'.rest.length < c.rest.length ∧ ∀ rounds,
        programFrom (rounds + 1) c =
          (items ++ (programFrom rounds c').1, (programFrom rounds c').2) :=
  (programFrom_cases c).imp_left fun hlast => hlast.imp fun _ h => h.2

/-- What a program is parsed from stands before the end of input. -/
theorem exists_read_programFrom (tokens : List Token) :
    ∃ read, tokens = read ++ (programFrom tokens.length { rest := tokens }).2.rest ∧
      ∀ t ∈ read, t.kind ≠ .eof :=
  have hpaid := programFrom_paid (c := { rest := tokens }) tokens.length (Rising.nil 0)
  hpaid.1.1.consumes.exists_read

/-- The errors of a program are paid for with the tokens that were read. -/
theorem length_errors_parseProgram (tokens : List Token) :
    (parseProgram tokens).2.length ≤ (tokens.takeWhile (·.kind ≠ .eof)).length := by
  obtain ⟨⟨-, -, -, hload⟩, -⟩ :=
    programFrom_paid (c := { rest := tokens }) tokens.length (Rising.nil 0)
  obtain ⟨read, hread, hbefore⟩ := exists_read_programFrom tokens
  have herrors : (parseProgram tokens).2.length ≤ read.length := by
    have hlength := congrArg List.length hread
    rw [List.length_append] at hlength
    simp only [Cursor.load, List.length_nil] at hload
    change (programFrom tokens.length { rest := tokens }).2.errors.length ≤ read.length
    omega
  refine Nat.le_trans herrors ?_
  rw [hread, List.takeWhile_append_of_pos fun t ht => decide_eq_true (hbefore t ht),
    List.length_append]
  exact Nat.le_add_right _ _

end Program

/-- Whatever tokens a program is parsed from, only tokens before the end of input are read, no more
errors are reported than there are of them, and parsing ends with the input or where nesting is too
deep.  In the loops that recover from errors, over items, members and statements, every round that
goes on reads a token; and neither they nor the loops inside types, calls and expressions end
because their rounds are counted. -/
theorem parsing_progresses (tokens : List Token) :
    let final := (programFrom tokens.length { rest := tokens }).2
    (∃ read, tokens = read ++ final.rest ∧ ∀ t ∈ read, t.kind ≠ .eof) ∧
      (parseProgram tokens).2.length ≤ (tokens.takeWhile (·.kind ≠ .eof)).length ∧
      Ended final ∧
      (∀ c, (∃ last, ∀ rounds, programFrom (rounds + 1) c = ([], last)) ∨
        ∃ items c', c.Leads c' ∧ c'.rest.length < c.rest.length ∧ ∀ rounds,
          programFrom (rounds + 1) c =
            (items ++ (programFrom rounds c').1, (programFrom rounds c').2)) ∧
      (∀ className, Advances (member className)) ∧
      (∀ levels, Advances (statement (expr levels) (block levels))) ∧
      RoundsSuffice programFrom ∧
      (∀ className, RoundsSuffice (itemsFrom (member className))) ∧
      (∀ levels, RoundsSuffice (itemsFrom (statement (expr levels) (block levels)))) ∧
      RoundsSuffice modifiersFrom ∧
      (∀ levels, RoundsSuffice (argsFrom (expr levels))) ∧
      (∀ base, RoundsSuffice (fieldsFrom · base)) ∧
      ∀ levels left,
        let factor := accessed (expr levels)
        let term := chain multiplicativeOp factor
        let sum := chain additiveOp term
        let comparison := chain comparisonOp sum
        RoundsSuffice (chainFrom multiplicativeOp factor · left) ∧
          RoundsSuffice (chainFrom additiveOp term · left) ∧
          RoundsSuffice (chainFrom comparisonOp sum · left) ∧
          RoundsSuffice (chainFrom conjunctionOp comparison · left) := by
  have hended := (programFrom_paid (c := { rest := tokens }) tokens.length (Rising.nil 0)).2
  refine ⟨exists_read_programFrom tokens, length_errors_parseProgram tokens,
    hended (Nat.le_refl _), programFrom_round, advances_member, advances_statement,
    roundsSuffice_programFrom, fun className => roundsSuffice_itemsFrom (advances_member className),
    fun levels => roundsSuffice_itemsFrom (advances_statement levels), roundsSuffice_modifiersFrom,
    fun levels => roundsSuffice_argsFrom (earns_expr levels), roundsSuffice_fieldsFrom, ?_⟩
  intro levels left factor term sum comparison
  have hfactor : Earns factor Expr.ids := earns_accessed (earns_expr levels)
  have hterm : Earns term Expr.ids := earns_chain rfl hfactor
  have hsum : Earns sum Expr.ids := earns_chain rfl hterm
  have hcomparison : Earns comparison Expr.ids := earns_chain rfl hsum
  exact ⟨roundsSuffice_chainFrom rfl hfactor left, roundsSuffice_chainFrom rfl hterm left,
    roundsSuffice_chainFrom rfl hsum left, roundsSuffice_chainFrom rfl hcomparison left⟩

end Parser

end DeferLang
