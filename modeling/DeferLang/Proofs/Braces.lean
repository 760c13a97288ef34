import DeferLang.Proofs.Cursors

/-!
# Counting braces

Where a block ends can be found by counting braces alone (`behindClosing`).  The
parser ends a block there as well, if the parser of its statements reads braces in
pairs (`Parser.PairsBraces`): when it skips what it cannot parse, it skips braces in
pairs too, and stops at one that closes the block around.
-/

namespace DeferLang

/-- The tokens behind the brace that closes the last of `depth` open ones, or from the end of
input on if there is none. -/
def behindClosing (depth : Nat) : List Token → List Token
  | [] => []
  | t :: ts =>
    if t.kind = .eof then t :: ts
    else if t.kind = .mark .lbrace then behindClosing (depth + 1) ts
    else if t.kind = .mark .rbrace then
      if depth ≤ 1 then ts else behindClosing (depth - 1) ts
    else behindClosing depth ts

/-- Whether a token can be read without opening or closing anything. -/
def TokenKind.isPlain : TokenKind → Bool
  | .eof => false
  | .mark .lbrace => false
  | .mark .rbrace => false
  | _ => true

section Counting

variable {t : Token} {ts : List Token} {depth : Nat}

theorem behindClosing_eof (h : t.kind = .eof) : behindClosing depth (t :: ts) = t :: ts := by
  rw [behindClosing, if_pos h]

theorem behindClosing_other (heof : t.kind ≠ .eof) (hopen : t.kind ≠ .mark .lbrace)
    (hclose : t.kind ≠ .mark .rbrace) : behindClosing depth (t :: ts) = behindClosing depth ts := by
  rw [behindClosing, if_neg heof, if_neg hopen, if_neg hclose]

theorem behindClosing_plain (h : t.kind.isPlain = true) :
    behindClosing depth (t :: ts) = behindClosing depth ts := by
  apply behindClosing_other <;> intro hkind <;> rw [hkind] at h <;> contradiction

theorem behindClosing_lbrace (h : t.kind = .mark .lbrace) :
    behindClosing depth (t :: ts) = behindClosing (depth + 1) ts := by
  rw [behindClosing, h, if_neg nofun, if_pos rfl]

theorem behindClosing_rbrace (h : t.kind = .mark .rbrace) :
    behindClosing depth (t :: ts) = if depth ≤ 1 then ts else behindClosing (depth - 1) ts := by
  rw [behindClosing, h, if_neg nofun, if_neg nofun, if_pos rfl]

/-- At the end of input nothing is closed any more. -/
theorem behindClosing_atEnd {c : Cursor} (h : c.atEnd = true) :
    behindClosing depth c.rest = c.rest := by
  unfold Cursor.atEnd Cursor.kind? at h
  cases hrest : c.rest with
  | nil => rfl
  | cons t ts =>
    have heof : t.kind = .eof := by simpa [hrest] using h
    exact behindClosing_eof heof

/-- Closing some braces, and then the others. -/
theorem behindClosing_add {k : Nat} (hdepth : 0 < depth) (hk : 0 < k) (ts : List Token) :
    behindClosing depth (behindClosing k ts) = behindClosing (depth + k) ts := by
  fun_induction behindClosing k ts with
  | case1 => rfl
  | case2 k t ts heof => rw [behindClosing_eof heof, behindClosing_eof heof]
  | case3 k t ts _ hopen ih => rw [ih (Nat.succ_pos k), behindClosing_lbrace hopen, Nat.add_assoc]
  | case4 k t ts _ _ hclose hlast =>
    obtain rfl : k = 1 := by omega
    rw [behindClosing_rbrace hclose, if_neg (by omega), Nat.add_sub_cancel]
  | case5 k t ts _ _ hclose hmore ih =>
    rw [ih (by omega), behindClosing_rbrace hclose, if_neg (by omega), Nat.add_sub_assoc (by omega)]
  | case6 k t ts heof hopen hclose ih => rw [ih hk, behindClosing_other heof hopen hclose]

theorem suffix_behindClosing (depth : Nat) (ts : List Token) : behindClosing depth ts <:+ ts := by
  fun_induction behindClosing depth ts with
  | case1 | case2 => exact List.suffix_refl _
  | case3 _ _ _ _ _ ih => exact ih.trans (List.suffix_cons _ _)
  | case4 => exact List.suffix_cons _ _
  | case5 _ _ _ _ _ _ _ ih | case6 _ _ _ _ _ _ ih => exact ih.trans (List.suffix_cons _ _)

end Counting

/-- From `ts` to what is left of it, `ts'`, braces were read in pairs. -/
structure SameDepth (ts ts' : List Token) : Prop where
  suffix : ts' <:+ ts
  closing : ∀ depth, 0 < depth → behindClosing depth ts' = behindClosing depth ts

namespace SameDepth

variable {ts ts' ts'' : List Token}

theorem refl (ts : List Token) : SameDepth ts ts :=
  ⟨List.suffix_refl ts, fun _ _ => rfl⟩

theorem trans (h : SameDepth ts ts') (h' : SameDepth ts' ts'') : SameDepth ts ts'' :=
  ⟨h'.suffix.trans h.suffix, fun depth hdepth =>
    (h'.closing depth hdepth).trans (h.closing depth hdepth)⟩

theorem read {t : Token} (h : t.kind.isPlain = true) : SameDepth (t :: ts) ts :=
  ⟨List.suffix_cons t ts, fun _ _ => (behindClosing_plain h).symm⟩

end SameDepth

section Skipping

/-- Skipping a statement closes the braces that are open in it, and no other. -/
theorem behindClosing_skipStatementIn (braces : Nat) (ts : List Token) (last : Option Span)
    {depth : Nat} (hdepth : 0 < depth) :
    behindClosing depth (Cursor.skipStatementIn braces ts last).1 =
      behindClosing (depth + braces) ts := by
  fun_induction Cursor.skipStatementIn braces ts last with
  | case1 => rfl
  | case2 braces t ts last heof => rw [behindClosing_eof heof, behindClosing_eof heof]
  | case3 braces t ts last heof hsemi =>
    rw [hsemi.2, behindClosing_plain (by rw [hsemi.1]; rfl)]
    rfl
  | case4 braces t ts last heof hsemi hopen ih =>
    rw [ih, behindClosing_lbrace hopen, Nat.add_assoc]
  | case5 => rfl
  | case6 t ts last heof hopen hclose hsemi =>
    rw [behindClosing_rbrace hclose, if_neg (by omega), Nat.add_sub_cancel]
  | case7 t ts last heof hopen hclose left hsemi ih =>
    rw [ih, behindClosing_rbrace hclose, if_neg (by omega)]
    rfl
  | case8 braces t ts last heof hsemi hopen hclose ih =>
    rw [ih, behindClosing_other heof hopen hclose]

theorem sameDepth_skipStatement (c : Cursor) : SameDepth c.rest c.skipStatement.rest :=
  ⟨(consumes_skipStatementIn 0 c.rest c.last).suffix,
    fun _ hdepth => behindClosing_skipStatementIn 0 c.rest c.last hdepth⟩

end Skipping

namespace Parser

variable {α : Type} {c : Cursor}

/-- A parser reads braces in pairs, also if it fails, and reads a token if it
succeeds.  Where nesting is too deep, parsing ends. -/
def PairsBraces (m : Parser α) : Prop :=
  ∀ c : Cursor, Ends m c
    (fun _ c' => SameDepth c.rest c'.rest ∧ c'.rest.length < c.rest.length)
    fun e c' => e.fault = .nestingTooDeep ∨ SameDepth c.rest c'.rest

/-- Where a list goes on, an item is read or skipped, and with it at least one token. -/
theorem ends_recovering {item : Parser α} (hitem : PairsBraces item) (hc : ¬c.IsStop) :
    Ends (recovering item) c
      (fun _ c' => SameDepth c.rest c'.rest ∧ c'.rest.length < c.rest.length)
      (fun e _ => e.fault = .nestingTooDeep) := by
  refine .recovering_or_fatal ((hitem c).mono (fun _ _ h => h) fun e c' h => ?_)
  split
  · rename_i hfatal
    exact ParseFault.isFatal_iff.1 hfatal
  · rename_i hfatal
    have hread := h.resolve_left (mt ParseFault.isFatal_iff.2 hfatal)
    exact ⟨hread.trans (sameDepth_skipStatement (c'.report e)),
      length_skipStatement_report e hread.suffix hc⟩

/-- With a round for every token, a list is read up to where it stops. -/
theorem ends_itemsFrom {item : Parser α} (hitem : PairsBraces item) {rounds : Nat}
    (hrounds : c.rest.length ≤ rounds) :
    Ends (itemsFrom item rounds) c (fun _ c' => SameDepth c.rest c'.rest ∧ c'.IsStop)
      (fun e _ => e.fault = .nestingTooDeep) := by
  induction rounds generalizing c with
  | zero =>
    have hrest : c.rest = [] := List.eq_nil_of_length_eq_zero (Nat.le_zero.1 hrounds)
    refine ⟨.refl c.rest, .inr ?_⟩
    rw [Cursor.atEnd, Cursor.kind?, hrest]
    rfl
  | succ rounds ih =>
    change Ends (if (decide (c.kind? = some (.mark .rbrace)) || c.atEnd) = true then Pure.pure []
      else _) c _ _
    have hstop : (decide (c.kind? = some (.mark .rbrace)) || c.atEnd) = true ↔ c.IsStop := by
      rw [Bool.or_eq_true, decide_eq_true_iff, Cursor.IsStop]
    by_cases hc : c.IsStop
    · rw [if_pos (hstop.2 hc)]
      exact ⟨.refl c.rest, hc⟩
    · rw [if_neg (mt hstop.1 hc)]
      refine .bind ((ends_recovering hitem hc).mono (fun found c' h => ?_) fun _ _ h => h)
      obtain ⟨hread, hshorter⟩ := h
      have hrest := (ih (c := c') (by omega)).mono
        (fun _ c'' hrest =>
          (⟨hread.trans hrest.1, hrest.2⟩ : SameDepth c.rest c''.rest ∧ c''.IsStop))
        fun _ _ hdeep => hdeep
      cases found with
      | none => exact hrest
      | some a => exact .bind (hrest.mono (fun _ _ hdone => hdone) fun _ _ hdeep => hdeep)

/-- Where the statements of a block stop, the block is closed, or the input ends. -/
theorem behindClosing_of_isStop (hc : c.IsStop) :
    behindClosing 1 c.rest = if c.kind? = some (.mark .rbrace) then c.advance.rest else c.rest := by
  by_cases hclose : c.kind? = some (.mark .rbrace)
  · obtain ⟨t, ts, hrest, hkind⟩ := Cursor.exists_of_kind hclose
    have hne : t.kind ≠ .eof := by
      rw [hkind]
      nofun
    rw [if_pos hclose, Cursor.advance_eq hrest hne, hrest, behindClosing_rbrace hkind,
      if_pos (Nat.le_refl 1)]
  · rw [if_neg hclose, behindClosing_atEnd (hc.resolve_left hclose)]

/-- A block is read up to its closing brace, whatever its statements are. -/
theorem PairsBraces.ends_blockOf {stmt : Parser Stmt} (hstmt : PairsBraces stmt)
    (hopen : c.kind? = some (.mark .lbrace)) :
    Ends (blockOf stmt) c (fun _ c' => c'.rest = behindClosing 0 c.rest)
      (fun e _ => e.fault = .nestingTooDeep) := by
  obtain ⟨t, ts, hrest, hkind⟩ := Cursor.exists_of_kind hopen
  have hne : t.kind ≠ .eof := by
    rw [hkind]
    nofun
  refine .opened (.token hopen ?_)
  rw [Cursor.advance_eq (c := { c with depth := c.depth + 1 }) hrest hne]
  have hitems := ends_itemsFrom hstmt (Nat.le_refl (Cursor.rest { c with
    rest := ts, last := some t.span, nextId := c.nextId + 1, depth := c.depth + 1 }).length)
  refine Ends.bind (m := itemsFrom stmt ts.length)
    (hitems.mono (fun stmts c' h => ?_) fun _ _ h => h)
  have hclosing : behindClosing 0 c.rest = behindClosing 1 c'.rest := by
    rw [hrest, behindClosing_lbrace hkind]
    exact (h.1.closing 1 Nat.one_pos).symm
  rw [hclosing, behindClosing_of_isStop h.2]
  change Ends (if decide (c'.kind? = some (.mark .rbrace)) = true then _ else _) c' _ _
  by_cases hclose : c'.kind? = some (.mark .rbrace)
  · rw [if_pos (decide_eq_true hclose), if_pos hclose]
    rfl
  · rw [if_neg (by simpa using hclose), if_neg hclose]
    rfl

/-- Blocks are read whole. -/
theorem PairsBraces.blockOf {stmt : Parser Stmt} (hstmt : PairsBraces stmt) :
    Ends (blockOf stmt) c (fun _ c' => SameDepth c.rest c'.rest)
      fun e c' => e.fault = .nestingTooDeep ∨ SameDepth c.rest c'.rest := by
  by_cases hopen : c.kind? = some (.mark .lbrace)
  · obtain ⟨t, ts, hrest, hkind⟩ := Cursor.exists_of_kind hopen
    refine (hstmt.ends_blockOf hopen).mono (fun _ c' h => ?_) fun _ _ hdeep => .inl hdeep
    rw [hrest, behindClosing_lbrace hkind] at h
    rw [h, hrest]
    refine ⟨(suffix_behindClosing 1 ts).trans (List.suffix_cons t ts), fun depth hdepth => ?_⟩
    rw [behindClosing_add hdepth Nat.one_pos, behindClosing_lbrace hkind]
  · -- without a brace nothing is read
    have hfail : Ends (expectMark .lbrace) { c with depth := c.depth + 1 } (fun _ _ => False)
        fun _ c' => SameDepth c.rest c'.rest := by
      change Ends (if decide (c.kind? = some (.mark .lbrace)) = true then _
        else Parser.fail _) _ _ _
      rw [if_neg (by simpa using hopen)]
      exact .refl c.rest
    exact .opened (.bind (hfail.mono (fun _ _ => False.elim) fun _ _ h => .inr h))

end Parser

end DeferLang
