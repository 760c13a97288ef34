import DeferLang.Proofs.AlikeParsers
import DeferLang.Proofs.ParserLogic

/-!
# The counter of what is open

The parsers of blocks and expressions are told how many of them can still be opened.
Here they are watched instead by the counter that a cursor carries: what is opened is
counted where it is opened, and the counter alone refuses what is too deep.  The
watched parsers know how many blocks and expressions are open around them, and would
stray from the parse wherever the counter says anything else.
-/

namespace DeferLang

theorem Cursor.Keeps.refl (c : Cursor) : c.Keeps c :=
  .of_errors rfl rfl

theorem Cursor.Keeps.trans {c d d' : Cursor} (h : c.Keeps d) (h' : d.Keeps d') : c.Keeps d' :=
  ⟨h'.depth.trans h.depth, fun e he => (h'.mild e he).elim (h.mild e) .inr⟩

theorem ParseFault.isFatal_iff_code (fault : ParseFault) :
    fault.isFatal = true ↔ fault.code = 3006 := by
  cases fault <;> simp [ParseFault.isFatal, ParseFault.code]

/-- Nothing that is too deep is reported before parsing ends. -/
theorem Cursor.Keeps.not_tooDeep {tokens : List Token} {d : Cursor}
    (h : Cursor.Keeps { rest := tokens } d) {e : ParseError} (he : e ∈ d.errors) :
    e.fault.code ≠ 3006 := by
  rw [Ne, ← ParseFault.isFatal_iff_code, (h.mild e he).resolve_left List.not_mem_nil]
  decide

namespace Parser

variable {α : Type} {f : α → α} {m m' : Parser α} {stray : ∀ α : Type, Parser α}
  {note : List ParseError} {k bound : Nat}

section Watching

/-- The cursor of an error, with a note if the error ends parsing. -/
def noted (note : List ParseError) (e : ParseError) (c : Cursor) : Cursor :=
  { c with errors := c.errors ++ if e.fault.isFatal then note else [] }

/-- What the counter does not allow is not opened, and a note is taken of it. -/
def entered (note : List ParseError) (bound : Nat) (p : Parser α) : Parser α := fun c =>
  if bound ≤ c.depth then
    .error ⟨.nestingTooDeep, c.span⟩ { c with errors := c.errors ++ note }
  else
    p c

/-- Run a parser while `k` blocks and expressions are open, and stray if the counter says anything
else before it or behind it. -/
def watched (stray : ∀ α : Type, Parser α) (bound k : Nat) (p : Parser α) : Parser α := fun c =>
  if c.depth = k ∧ k ≤ bound then
    match p c with
    | .ok a d => if d.depth = k then .ok a d else stray α d
    | .error e d => if d.depth = k then .error e d else stray α d
  else
    stray α c

variable (stray : ∀ α : Type, Parser α) (note : List ParseError) (bound : Nat)

/-- Open one more inside of `k` open blocks and expressions, if the counter allows it. -/
def nested (k : Nat) (p : Parser α) : Parser α :=
  watched stray bound k <| entered note bound <| opened <| watched stray bound (k + 1) p

/-- An expression inside of `k` open blocks and expressions. -/
def watchedExpr : Nat → Nat → Parser Expr
  | 0, _ => stray Expr
  | rounds + 1, k => nested stray note bound k (operatorLevels (watchedExpr rounds (k + 1)))

/-- A block inside of `k` open blocks and expressions. -/
def watchedBlock : Nat → Nat → Parser Block
  | 0, _ => stray Block
  | rounds + 1, k =>
    nested stray note bound k <| blockIn <|
      statement (watchedExpr stray note bound rounds (k + 1)) (watchedBlock rounds (k + 1))

/-- The items of a token stream, and the cursor behind them. -/
def watchedProgram (tokens : List Token) : List Item × Cursor :=
  programOver (itemWith (watchedBlock stray note maxNesting (maxNesting + 1) 0)) tokens.length
    { rest := tokens }

/-- The counter refuses something: a note of it is taken among the reports of the parse. -/
def Refuses (note : ParseError) (tokens : List Token) : Prop :=
  ∃ before after,
    (programFrom tokens.length { rest := tokens }).2.errors = before ++ after ∧
    (watchedProgram stray [note] tokens).2.errors = before ++ note :: after

end Watching

/-- With `k` open, a parser closes what it opens, and another parser does the same and takes a note
where parsing ends. -/
def Counts (note : List ParseError) (k : Nat) (_ : α → α) (m m' : Parser α) : Prop :=
  ∀ c : Cursor, c.depth = k → Ends m c (fun a d => c.Keeps d ∧ m' c = .ok a d)
    fun e d => c.Keeps d ∧ m' c = .error e (noted note e d)

section Rules

theorem noted_of_mild {e : ParseError} (h : e.fault.isFatal = false) (c : Cursor) :
    noted note e c = c := by
  simp [noted, h]

theorem noted_nil (e : ParseError) (c : Cursor) : noted [] e c = c := by
  simp [noted]

theorem counts_recovering (hm : Counts note k f m m') :
    Counts note k (Option.map f) (recovering m) (recovering m') := by
  intro c hc
  have hends := hm c hc
  refine .recovering_or_fatal (hends.mono (fun a d h => ⟨h.1, ?_⟩) fun e d h => ?_)
  · rw [recovering, h.2]
  · split
    · rename_i hfatal
      refine ⟨h.1, ?_⟩
      rw [recovering, h.2]
      exact if_pos hfatal
    · rename_i hfatal
      have hmild : e.fault.isFatal = false := Bool.eq_false_iff.2 hfatal
      refine ⟨h.1.trans (.trans (.report d hmild) (.of_errors rfl rfl)), ?_⟩
      rw [recovering, h.2, noted_of_mild hmild]
      exact if_neg hfatal

theorem Counts.of_alike (h : Alike false (fun _ => Counts note k) f m m') :
    Counts note k f m m' := by
  induction h with
  | part h => exact h
  | pure h => exact fun c _ => ⟨.refl c, h ▸ rfl⟩
  | bind _ _ ihm ihk =>
    intro c hc
    refine .bind ((ihm c hc).mono ?_ ?_)
    · rintro a d ⟨hkeeps, hsame⟩
      rw [bind_of_ok hsame]
      exact (ihk a d (hkeeps.depth.trans hc)).mono (fun _ _ h => ⟨hkeeps.trans h.1, h.2⟩)
        fun _ _ h => ⟨hkeeps.trans h.1, h.2⟩
    · exact fun e d h => ⟨h.1, bind_of_error h.2⟩
  | @step α _ g _ hsame hkeeps =>
    exact fun c _ =>
      ⟨hkeeps c, congrArg (fun r : α × Cursor => EStateM.Result.ok r.1 r.2) (hsame c)⟩
  | throw h => exact fun c _ => ⟨.refl c, congrArg _ (noted_of_mild h c).symm⟩
  | recovering _ ih => exact counts_recovering ih

theorem Counts.opened (hm : Counts note (k + 1) f m m') :
    Counts note k f (opened m) (opened m') := by
  intro c hc
  have hclosed {d : Cursor} (h : Cursor.Keeps { c with depth := c.depth + 1 } d) :
      c.Keeps { d with depth := d.depth - 1 } :=
    ⟨congrArg (· - 1) h.depth, h.mild⟩
  refine .opened ((hm { c with depth := c.depth + 1 } (congrArg (· + 1) hc)).mono ?_ ?_)
  · rintro a d ⟨hkeeps, hsame⟩
    refine ⟨hclosed hkeeps, ?_⟩
    rw [Parser.opened, hsame]
  · rintro e d ⟨hkeeps, hsame⟩
    refine ⟨hclosed hkeeps, ?_⟩
    rw [Parser.opened, hsame]
    rfl

theorem Counts.watched (hk : k ≤ bound) (hm : Counts note k f m m') :
    Counts note k f m (watched stray bound k m') := by
  intro c hc
  refine (hm c hc).mono ?_ ?_
  · rintro a d ⟨hkeeps, hsame⟩
    refine ⟨hkeeps, ?_⟩
    rw [Parser.watched, if_pos ⟨hc, hk⟩, hsame]
    exact if_pos (hkeeps.depth.trans hc)
  · rintro e d ⟨hkeeps, hsame⟩
    refine ⟨hkeeps, ?_⟩
    rw [Parser.watched, if_pos ⟨hc, hk⟩, hsame]
    exact if_pos (hkeeps.depth.trans hc)

/-- Below the bound, the counter allows one more. -/
theorem Counts.nested (hk : k < bound) (hm : Counts note (k + 1) f m m') :
    Counts note k f (Parser.opened m) (nested stray note bound k m') := by
  refine .watched (Nat.le_of_lt hk) fun c hc => ?_
  have hopens (p : Parser α) : entered note bound p c = p c := if_neg (by omega)
  rw [hopens]
  exact (hm.watched hk).opened c hc

/-- At the bound, it refuses. -/
theorem counts_refused :
    Counts note bound f (fail fun _ => .nestingTooDeep) (nested stray note bound bound m') :=
  .watched (Nat.le_refl _) fun c hc => ⟨.refl c, if_pos (Nat.le_of_eq hc.symm)⟩

theorem Counts.eq_of_no_note {c : Cursor} (hm : Counts [] c.depth f m m') : m' c = m c := by
  have hends := hm c rfl
  unfold Ends at hends
  cases hcase : m c with
  | ok a d =>
    rw [hcase] at hends
    exact hends.2
  | error e d =>
    rw [hcase] at hends
    rw [hends.2, noted_nil]

theorem Counts.ends_depth {c : Cursor} (hm : Counts note c.depth f m m') :
    Ends m c (fun _ d => d.depth = c.depth) fun _ d => d.depth = c.depth :=
  (hm c rfl).mono (fun _ _ h => h.1.depth) fun _ _ h => h.1.depth

end Rules

section Programs

variable (stray note) in
theorem counts_expr (levels rounds : Nat) (hk : k + levels = bound) (hrounds : levels < rounds) :
    Counts note k Expr.unspanned (expr levels) (watchedExpr stray note bound rounds k) := by
  -- what is open and what can be opened make up the bound
  induction levels generalizing k rounds with
  | zero =>
    obtain ⟨rounds, rfl⟩ := Nat.exists_eq_add_one.2 hrounds
    obtain rfl : k = bound := hk
    exact counts_refused
  | succ levels ih =>
    obtain ⟨rounds, rfl⟩ := Nat.exists_eq_add_one.2 (Nat.zero_lt_of_lt hrounds)
    refine .nested (by omega) (.of_alike (alike_operatorLevels (.part ?_)))
    exact ih rounds (by omega) (by omega)

variable (stray note) in
theorem counts_block (levels rounds : Nat) (hk : k + levels = bound) (hrounds : levels < rounds) :
    Counts note k Block.unspanned (block levels) (watchedBlock stray note bound rounds k) := by
  induction levels generalizing k rounds with
  | zero =>
    obtain ⟨rounds, rfl⟩ := Nat.exists_eq_add_one.2 hrounds
    obtain rfl : k = bound := hk
    exact counts_refused
  | succ levels ih =>
    obtain ⟨rounds, rfl⟩ := Nat.exists_eq_add_one.2 (Nat.zero_lt_of_lt hrounds)
    refine .nested (by omega) (.of_alike (alike_blockIn (alike_statement (.part ?_) (.part ?_))))
    · exact counts_expr stray note levels rounds (by omega) (by omega)
    · exact ih rounds (by omega) (by omega)

/-- From a cursor, a program gives a result in which nothing is too deep, or it ends with the report
that something is.  Watched, it gives the same, up to the note. -/
def EndsCounted (note : List ParseError) (c : Cursor) (result result' : List Item × Cursor) :
    Prop :=
  (c.Keeps result.2 ∧ result' = result) ∨
    ∃ e d, e.fault.isFatal = true ∧ c.Keeps d ∧ result.2 = d.report e ∧
      result' = (result.1, (noted note e d).report e)

theorem EndsCounted.after {c d : Cursor} {result result' : List Item × Cursor} (items : List Item)
    (hc : c.Keeps d) (h : EndsCounted note d result result') :
    EndsCounted note c (items ++ result.1, result.2) (items ++ result'.1, result'.2) := by
  rcases h with ⟨hkeeps, rfl⟩ | ⟨e, d', hfatal, hkeeps, hresult, rfl⟩
  · exact .inl ⟨hc.trans hkeeps, rfl⟩
  · exact .inr ⟨e, d', hfatal, hc.trans hkeeps, hresult, rfl⟩

theorem endsCounted_programOver {item item' : Parser Item}
    (hitem : Counts note 0 Item.unspanned item item') (rounds : Nat) {c : Cursor}
    (hc : c.depth = 0) :
    EndsCounted note c (programOver item rounds c) (programOver item' rounds c) := by
  induction rounds generalizing c with
  | zero => exact .inl ⟨.refl c, rfl⟩
  | succ rounds ih =>
    unfold programOver
    by_cases hend : c.atEnd = true
    · rw [if_pos hend, if_pos hend]
      exact .inl ⟨.refl c, rfl⟩
    rw [if_neg hend, if_neg hend]
    have hends := hitem c hc
    unfold Ends at hends
    cases hcase : item c with
    | ok i d =>
      rw [hcase] at hends
      rw [hends.2]
      exact (ih (hends.1.depth.trans hc)).after [i] hends.1
    | error e d =>
      rw [hcase] at hends
      obtain ⟨hkeeps, hsame⟩ := hends
      rw [hsame]
      by_cases hfatal : e.fault.isFatal = true
      · dsimp only
        rw [if_pos hfatal, if_pos hfatal]
        exact .inr ⟨e, d, hfatal, hkeeps, rfl, rfl⟩
      · have hmild : e.fault.isFatal = false := Bool.eq_false_iff.2 hfatal
        have hreport := hkeeps.trans (.report d hmild)
        have hnext (next : Cursor) (hskip : (d.report e).Keeps next) :=
          (ih (hskip.depth.trans (hreport.depth.trans hc))).after [] (hreport.trans hskip)
        dsimp only
        rw [if_neg hfatal, if_neg hfatal, noted_of_mild hmild]
        split
        · exact hnext _ (.trans (.advance _) (.of_errors rfl rfl))
        · exact hnext _ (.of_errors rfl rfl)

variable (stray note) (tokens : List Token)

theorem endsCounted_watchedProgram :
    EndsCounted note { rest := tokens } (programFrom tokens.length { rest := tokens })
      (watchedProgram stray note tokens) :=
  endsCounted_programOver (.of_alike (alike_item (.part
    (counts_block stray note maxNesting (maxNesting + 1) (Nat.zero_add _) (Nat.lt_succ_self _)))))
    tokens.length rfl

theorem watchedProgram_eq :
    watchedProgram stray [] tokens = programFrom tokens.length { rest := tokens } := by
  rcases endsCounted_watchedProgram stray [] tokens with ⟨-, hsame⟩ | ⟨e, d, -, -, hfinal, hsame⟩
  · exact hsame
  · rw [hsame, noted_nil, ← hfinal]

/-- Where nesting is too deep, parsing ends. -/
theorem countP_tooDeep_le_one :
    (programFrom tokens.length { rest := tokens }).2.errors.countP (fun e => e.fault.code = 3006) ≤
      1 := by
  have hnone {d : Cursor} (h : Cursor.Keeps { rest := tokens } d) :
      d.errors.countP (fun e => e.fault.code = 3006) = 0 :=
    List.countP_eq_zero.2 fun e he hcode => h.not_tooDeep he (of_decide_eq_true hcode)
  rcases endsCounted_watchedProgram (fun _ => fail .expectedItem) [] tokens with
    ⟨hkeeps, -⟩ | ⟨e, d, -, hkeeps, hfinal, -⟩
  · rw [hnone hkeeps]
    exact Nat.zero_le 1
  · rw [hfinal, Cursor.report, List.countP_append, hnone hkeeps, Nat.zero_add]
    exact List.countP_le_length

/-- Something is too deep and refused, or nothing is and no note is taken. -/
theorem refuses_or_eq (note : ParseError) :
    ((∃ e ∈ (programFrom tokens.length { rest := tokens }).2.errors, e.fault.code = 3006) ∧
      Refuses stray note tokens) ∨
    (¬∃ e ∈ (programFrom tokens.length { rest := tokens }).2.errors, e.fault.code = 3006) ∧
      watchedProgram stray [note] tokens = programFrom tokens.length { rest := tokens } := by
  rcases endsCounted_watchedProgram stray [note] tokens with
    ⟨hkeeps, hsame⟩ | ⟨e, d, hfatal, hkeeps, hfinal, hsame⟩
  · exact .inr ⟨fun ⟨e, he, hcode⟩ => hkeeps.not_tooDeep he hcode, hsame⟩
  · refine .inl ⟨⟨e, ?_, (ParseFault.isFatal_iff_code _).1 hfatal⟩, d.errors, [e], ?_, ?_⟩
    · rw [hfinal]
      exact List.mem_append_right _ List.mem_cons_self
    · rw [hfinal, Cursor.report]
    · simp [hsame, noted, hfatal, Cursor.report]

/-- A note that is taken is one report more. -/
theorem Refuses.ne {stray tokens} {note : ParseError} (h : Refuses stray note tokens) :
    watchedProgram stray [note] tokens ≠ programFrom tokens.length { rest := tokens } := by
  obtain ⟨before, after, hplain, hnoted⟩ := h
  intro hsame
  rw [hsame, hplain, List.append_cancel_left_eq] at hnoted
  exact List.ne_cons_self hnoted

end Programs

end Parser

/-- The counter of what is open is exact on every path.  Every expression and every block ends with
the counter at which it starts, whether it is read or fails.  The parse of any tokens, as an
expression or as a program, is the one in which the counter decides what is too deep, and is the
number of blocks and expressions open, at most `maxNesting`, wherever one of them starts or ends: it
never strays.  At most one report says that nesting is too deep, and one does if and only if the
counter refuses something.  If it refuses nothing, a note of what it refuses is never taken. -/
theorem nesting_counted_exactly (tokens : List Token) (stray : ∀ α : Type, Parser α)
    (note : ParseError) :
    (∀ levels c, Parser.Ends (Parser.expr levels) c (fun _ d => d.depth = c.depth)
      fun _ d => d.depth = c.depth) ∧
    (∀ levels c, Parser.Ends (Parser.block levels) c (fun _ d => d.depth = c.depth)
      fun _ d => d.depth = c.depth) ∧
    Parser.watchedExpr stray [] maxNesting (maxNesting + 1) 0 { rest := tokens } =
      Parser.expr maxNesting { rest := tokens } ∧
    Parser.watchedProgram stray [] tokens =
      Parser.programFrom tokens.length { rest := tokens } ∧
    (parseProgram tokens).2.countP (fun e => e.fault.code = 3006) ≤ 1 ∧
    ((∃ e ∈ (parseProgram tokens).2, e.fault.code = 3006) ↔
      Parser.Refuses stray note tokens) ∧
    (Parser.Refuses stray note tokens ∨ Parser.watchedProgram stray [note] tokens =
      Parser.programFrom tokens.length { rest := tokens }) := by
  have hrefused := Parser.refuses_or_eq stray tokens note
  refine ⟨fun levels c => ?_, fun levels c => ?_, ?_, Parser.watchedProgram_eq stray tokens,
    Parser.countP_tooDeep_le_one tokens, ?_, hrefused.imp And.right And.right⟩
  · exact (Parser.counts_expr stray [] levels _ rfl (Nat.lt_succ_self _)).ends_depth
  · exact (Parser.counts_block stray [] levels _ rfl (Nat.lt_succ_self _)).ends_depth
  · have hcounts := Parser.counts_expr stray [] maxNesting _ (Nat.zero_add _) (Nat.lt_succ_self _)
    exact hcounts.eq_of_no_note
  · rcases hrefused with ⟨hdeep, hrefuses⟩ | ⟨hnone, hsame⟩
    · exact iff_of_true hdeep hrefuses
    · exact iff_of_false hnone fun hrefuses => hrefuses.ne hsame

end DeferLang
