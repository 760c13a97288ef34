import DeferLang.Proofs.LinePositions
import DeferLang.Proofs.MeaningPreserved

/-!
# Printed texts

A text is printed by a call that has a constant as its only argument, and the constant is read
as a format: up to the first zero, with a doubled percent sign for a percent sign, and with no
conversion since there is no further argument (`formatted?`).  So what the constant for a text
stands for is the text and a newline, unless there is a zero in the text, which ends it
(`formatted?_printFormat`).

The calls with one argument are exactly those that print a text
(`printed_texts_stand_for_literals`).  Nothing is said about the printing of values.
-/

namespace DeferLang

open List

namespace Code

/-- The byte of a percent sign. -/
def percent : UInt8 := 37

/-- What a format without further arguments stands for: its bytes up to the first zero, with a
doubled percent sign for one.  Any other use of a percent sign asks for an argument. -/
def formatted? : List UInt8 → Option (List UInt8)
  | [] => none
  | b :: rest =>
    if b = 0 then some []
    else if b = percent then
      match rest with
      | [] => none
      | c :: rest => if c = percent then (formatted? rest).map (percent :: ·) else none
    else (formatted? rest).map (b :: ·)

/-- Bytes that are read as a format stand for a text and a newline, or for the part of the text
in front of its first zero. -/
def StandsFor (bytes : List UInt8) (text : List Char) : Prop :=
  formatted? bytes = some (if '\x00' ∈ text then utf8Bytes (text.takeWhile (· ≠ '\x00'))
    else utf8Bytes text ++ [lineFeed])

section Formats

theorem formatted?_zero (rest : List UInt8) : formatted? (0 :: rest) = some [] := by
  cases rest <;> rfl

theorem formatted?_plain {b : UInt8} (hzero : b ≠ 0) (hpercent : b ≠ percent) (rest : List UInt8) :
    formatted? (b :: rest) = (formatted? rest).map (b :: ·) := by
  cases rest <;> simp only [formatted?, if_neg hzero, if_neg hpercent]

theorem formatted?_plain_append {bytes : List UInt8} (h : ∀ b ∈ bytes, b ≠ 0 ∧ b ≠ percent)
    (rest : List UInt8) : formatted? (bytes ++ rest) = (formatted? rest).map (bytes ++ ·) := by
  induction bytes with
  | nil => simp
  | cons b bytes ih =>
    obtain ⟨⟨hzero, hpercent⟩, hbytes⟩ := forall_mem_cons.1 h
    rw [cons_append, formatted?_plain hzero hpercent, ih hbytes, Option.map_map]
    rfl

theorem plain_utf8EncodeChar {c : Char} (hzero : c ≠ '\x00') (hpercent : c ≠ '%') :
    ∀ b ∈ String.utf8EncodeChar c, b ≠ 0 ∧ b ≠ percent := by
  refine fun b hb => ⟨?_, ?_⟩
  · rintro rfl
    exact hzero (Char.ext (UInt32.toNat_inj.1 (val_of_mem_utf8EncodeChar hb (by decide))))
  · rintro rfl
    exact hpercent (Char.ext (UInt32.toNat_inj.1 (val_of_mem_utf8EncodeChar hb (by decide))))

/-- The format that is made for a text stands for the text. -/
theorem formatted?_printFormat (text : String) :
    StandsFor (Module.constantBytes (Lower.printFormat text)) text.toList := by
  have hbytes : Module.constantBytes (Lower.printFormat text) =
      utf8Bytes (text.toList.flatMap fun c => if c = '%' then ['%', '%'] else [c]) ++
        [lineFeed, 0] := by
    rw [Module.constantBytes, Lower.printFormat, String.toList_append, String.toList_ofList,
      utf8Bytes_append, append_assoc]
    rfl
  rw [StandsFor, hbytes]
  generalize text.toList = cs
  induction cs with
  | nil => rfl
  | cons c cs ih =>
    rw [flatMap_cons, utf8Bytes_append, append_assoc]
    by_cases hzero : c = '\x00'
    · subst hzero
      rw [if_pos mem_cons_self, takeWhile_cons_of_neg (by decide)]
      exact formatted?_zero _
    · have hmem : '\x00' ∈ c :: cs ↔ '\x00' ∈ cs :=
        ⟨fun h => (mem_cons.1 h).resolve_left (Ne.symm hzero), mem_cons_of_mem c⟩
      have hread : formatted? (utf8Bytes (if c = '%' then ['%', '%'] else [c]) ++
          (utf8Bytes (cs.flatMap fun c => if c = '%' then ['%', '%'] else [c]) ++
            [lineFeed, 0])) =
          (formatted? (utf8Bytes (cs.flatMap fun c => if c = '%' then ['%', '%'] else [c]) ++
            [lineFeed, 0])).map (String.utf8EncodeChar c ++ ·) := by
        by_cases hpercent : c = '%'
        · subst hpercent
          rfl
        · rw [if_neg hpercent, ← formatted?_plain_append (plain_utf8EncodeChar hzero hpercent)]
          simp [utf8Bytes]
      rw [hread, ih, Option.map_some, takeWhile_cons_of_pos (by simpa using hzero)]
      by_cases hrest : '\x00' ∈ cs
      · rw [if_pos hrest, if_pos (hmem.2 hrest)]
        rfl
      · rw [if_neg hrest, if_neg (mt hmem.1 hrest), ← append_assoc]
        rfl

end Formats

/-- A call prints a text. -/
def PrintsText (c : Call) (text : String) : Prop :=
  c.callee.name = printName ∧ ∃ id span, c.args = [.str id span text]

/-- An instruction gives a constant to the print routine and nothing else, and the constant stands
for a text. -/
def Module.Shows (m : Module) (printSymbol : String) (i : Instr) (text : String) : Prop :=
  ∃ name bytes, i.operation = .call printSymbol .i32 [(.ptr, .address name)] ∧
    m.datum? (.address name) = some (.text bytes) ∧ StandsFor bytes text.toList

section Walk

variable {ctx : Context} {printSymbol : String} {scope : List SymbolId} {m m' : Module}
  {fs : List DeferLang.Function}

theorem Computes.not_call {slots : Slots} {first : ValueId} {e : Expr} {code : List Instr}
    {x : Operand} {type : ValueType} (h : Computes ctx scope slots first e code x type) :
    ∀ i ∈ code, ∀ callee result args, i.operation ≠ .call callee result args := by
  induction h with
  | int _ | bool => exact fun _ hi => by contradiction
  | var _ _ _ => exact forall_mem_singleton.2 fun _ _ _ => Operation.noConfusion
  | binary _ _ _ hl hr =>
    refine forall_mem_append.2 ⟨hl, forall_mem_append.2 ⟨hr, ?_⟩⟩
    exact forall_mem_singleton.2 fun _ _ _ => Operation.noConfusion

/-- If an instruction is a call of the print routine with one argument, it prints a text for one of
the calls. -/
def PrintsOneOf (m : Module) (printSymbol : String) (calls : List Call) (i : Instr) : Prop :=
  ∀ x, i.operation = .call printSymbol .i32 [x] →
    ∃ c ∈ calls, ∃ text, PrintsText c text ∧ m.PrintsBy printSymbol c i [x]

variable {calls : List Call}

theorem PrintsOneOf.of_not_call {i : Instr}
    (h : ∀ callee result args, i.operation ≠ .call callee result args) :
    PrintsOneOf m printSymbol calls i :=
  fun _ hop => absurd hop (h _ _ _)

/-- Only a call that prints a text makes a call of the print routine with one argument. -/
theorem LowersCall.printsOneOf {s s' : Lowering} {c : Call} (hc : c ∈ calls)
    (h : LowersCall ctx printSymbol scope s c s') (hm : s'.module.Extends m)
    (hs : s.Every (PrintsOneOf m printSymbol calls)) :
    s'.Every (PrintsOneOf m printSymbol calls) := by
  cases h with
  | @printText _ id span text hname hargs =>
    refine Lowering.Every.emitted hs fun x hop => ?_
    cases hop
    refine ⟨c, hc, text, ⟨hname, id, span, hargs⟩, rfl, rfl, fun id' span' text' heq => ?_⟩
    cases hargs.symm.trans heq
    exact ⟨_, hm, rfl⟩
  | printNumber _ _ hcode =>
    refine Lowering.Every.emitted (Lowering.Every.computed hs ?_) fun x hop => by cases hop
    cases hcode with
    | number hcode => exact fun i hi => .of_not_call (hcode.not_call i hi)
    | truth hcode =>
      refine forall_mem_append.2 ⟨fun i hi => .of_not_call (hcode.not_call i hi), ?_⟩
      exact forall_mem_singleton.2 (.of_not_call fun _ _ _ => Operation.noConfusion)
  | function _ _ _ _ => exact Lowering.Every.emitted hs fun x hop => by cases hop
  | main _ _ _ _ =>
    exact Lowering.Every.computed hs (forall_mem_singleton.2 fun x hop => by cases hop)
  | routine _ _ hargs _ =>
    refine Lowering.Every.emitted ?_ fun x hop => by cases hop
    exact hargs.every (fun hcode i hi => .of_not_call (hcode.not_call i hi)) hs

/-- In a module, the calls of the print routine with one argument are those that print a text. -/
theorem LowersFunctions.printsOneOf (h : LowersFunctions ctx printSymbol m fs m')
    (hm : m.functions = []) : ∀ entry ∈ m'.functions, ∀ i ∈ entry.2.instrs,
      PrintsOneOf m' printSymbol (callsOf fs) i := by
  intro entry hentry
  rcases h.isCodeOf_of_mem entry hentry with hold | ⟨f, hf, -, hcode⟩
  · rw [hm] at hold
    contradiction
  · refine hcode.every (fun hcode i hi => .of_not_call (hcode.not_call i hi))
      (fun _ _ _ _ _ => .of_not_call fun _ _ _ => Operation.noConfusion) (fun i hslot => ?_)
      fun hc hcall => hcall.printsOneOf (mem_flatMap.2 ⟨f, hf, hc⟩)
    obtain ⟨type, hop⟩ := Instr.isSlot_eq_true.1 hslot
    exact .of_not_call fun _ _ _ hcall => by rw [hop] at hcall; contradiction

theorem Module.PrintsBy.shows (hnodup : (m.constants.map Constant.name).Nodup) {c : Call}
    {i : Instr} {args : CallArgs} (h : m.PrintsBy printSymbol c i args)
    {text : String} (htext : PrintsText c text) : m.Shows printSymbol i text := by
  obtain ⟨-, id, span, hargs⟩ := htext
  obtain ⟨before, hbefore, rfl⟩ := h.text id span text hargs
  exact ⟨_, _, h.operation_eq, Module.datum?_intern hnodup hbefore, formatted?_printFormat text⟩

end Walk

end Code

/-- Where a compilation gives a module, every call that prints a text has an instruction at its
place, and every call of the print routine with nothing but a format is at the place of such a call:
the constant that it is given, read as a format, stands for the text and a newline, or for the part
of the text in front of its first zero if there is one. -/
theorem printed_texts_stand_for_literals (o : Options) (name : String) (text : List Char)
    {m : Code.Module} (hm : (compileText o name text).module = some m) :
    ∃ result, (compileText o name text).scheduled = some result ∧
      (∀ c ∈ Code.callsOf result.program.functions, ∀ literal, Code.PrintsText c literal →
        ∃ entry ∈ m.functions, ∃ i ∈ entry.2.instrs,
          i.span = c.span ∧ m.Shows o.printSymbol i literal) ∧
      ∀ entry ∈ m.functions, ∀ i ∈ entry.2.instrs, ∀ x,
        i.operation = .call o.printSymbol .i32 [x] →
          ∃ c ∈ Code.callsOf result.program.functions, ∃ literal, Code.PrintsText c literal ∧
            i.span = c.span ∧ m.Shows o.printSymbol i literal := by
  obtain ⟨hclean, hscheduled, module, herrors, rfl⟩ := ofSource_module hm
  refine ⟨_, hscheduled, ?_⟩
  generalize Source.ofText 0 name text = s at *
  have hlowers := s.lowersFunctions_planned hclean o.lowering module herrors
  have hconstants := hlowers.nodup_constants rfl
  constructor
  · intro c hc literal hliteral
    obtain ⟨entry, hentry, i, hi, args, hprints⟩ :=
      (hlowers.performs (s.nodup_functionNames_planned hclean) hc).1 hliteral.1
    exact ⟨entry, hentry, i, hi, hprints.span_eq, hprints.shows hconstants hliteral⟩
  · intro entry hentry i hi x hop
    obtain ⟨c, hc, literal, hliteral, hprints⟩ := hlowers.printsOneOf rfl entry hentry i hi x hop
    exact ⟨c, hc, literal, hliteral, hprints.span_eq, hprints.shows hconstants hliteral⟩

/-- A text that prints a literal with a percent sign and one with a zero in it. -/
def zeroInLiteral : List Char :=
  "fn main() \x7b print(\"50%\"); print(\"a\x00b\"); \x7d".toList

theorem module_zeroInLiteral :
    (compileText {} "zero" zeroInLiteral).module =
      some (Code.lowerProgram (Source.ofText 0 "zero" zeroInLiteral).context
        ({} : Options).lowering "zero"
        (Source.ofText 0 "zero" zeroInLiteral).planned.1.program).1 := by
  rw [compileText_module]
  exact ofSource_module_eq (o := {}) (s := .ofText 0 "zero" zeroInLiteral) rfl rfl
    (by decide +kernel) (by decide +kernel) (by decide +kernel) (by decide +kernel)
    (by decide +kernel)

theorem printed_texts_stand_for_literals_zeroInLiteral :
    ∃ m result, (compileText {} "zero" zeroInLiteral).module = some m ∧
      (compileText {} "zero" zeroInLiteral).scheduled = some result ∧
        ∀ c ∈ Code.callsOf result.program.functions, ∀ literal, Code.PrintsText c literal →
          ∃ entry ∈ m.functions, ∃ i ∈ entry.2.instrs,
            i.span = c.span ∧ m.Shows printName i literal := by
  obtain ⟨result, hresult, hprinted, -⟩ :=
    printed_texts_stand_for_literals {} "zero" zeroInLiteral module_zeroInLiteral
  exact ⟨_, result, module_zeroInLiteral, hresult, hprinted⟩

/-- The text behind the zero and the newline are not printed. -/
theorem printed_text_cut_zeroInLiteral :
    (Code.callsOf (Source.ofText 0 "zero" zeroInLiteral).planned.1.program.functions).map
        Call.args = [[.str 3 ⟨18, 5⟩ "50%"], [.str 5 ⟨32, 5⟩ "a\x00b"]] ∧
      (compileText {} "zero" zeroInLiteral).module.map (·.run 20 "main") =
        some ⟨[⟨"print", [.text [53, 48, 37, 37, 10, 0]]⟩, ⟨"print", [.text [97, 0, 98, 10, 0]]⟩],
          some .finished⟩ ∧
      Code.formatted? [53, 48, 37, 37, 10, 0] = some (utf8Bytes "50%".toList ++ [lineFeed]) ∧
      Code.formatted? [97, 0, 98, 10, 0] = some [97] ∧
      utf8Bytes "a\x00b".toList ++ [lineFeed] = [97, 0, 98, 10] := by
  rw [module_zeroInLiteral]
  decide +kernel

end DeferLang
