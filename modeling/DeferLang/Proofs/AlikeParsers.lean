import DeferLang.Proofs.Shape

/-!
# Parsers that are built alike

Erasing a token keeps its kind only.  Two parsers are built alike if they make the same
steps, over parts that are related somehow (`Parser.Alike`), where the second may read
erased tokens and gives erased results then.  One lemma for each parser says that it is
built alike over parts that are.
-/

namespace DeferLang

section Erase

/-- A token without its place and text. -/
def Token.erase (t : Token) : Token :=
  ⟨t.kind, "", .blank⟩

def Found.erase : Found → Found
  | .token _ => .token ""
  | .endOfInput => .endOfInput

/-- A fault that does not quote what was found. -/
def ParseFault.erase : ParseFault → ParseFault
  | .expectedToken kind found => .expectedToken kind found.erase
  | .expectedType found => .expectedType found.erase
  | .expectedExpr found => .expectedExpr found.erase
  | .unexpectedParameters found => .unexpectedParameters found.erase
  | .unclosedBlock found => .unclosedBlock found.erase
  | .expectedStmt found => .expectedStmt found.erase
  | .expectedItem found => .expectedItem found.erase
  | .unsupportedCtor className found => .unsupportedCtor className found.erase
  | .expectedCtorBody found => .expectedCtorBody found.erase
  | .expectedDefaultOrDelete found => .expectedDefaultOrDelete found.erase
  | fault => fault

def ParseError.erase (e : ParseError) : ParseError :=
  ⟨e.fault.erase, .blank⟩

def Cursor.erase (c : Cursor) : Cursor where
  rest := c.rest.map Token.erase
  last := c.last.map fun _ => .blank
  nextId := c.nextId
  errors := c.errors.map ParseError.erase
  depth := c.depth

theorem ParseFault.isFatal_erase (fault : ParseFault) : fault.erase.isFatal = fault.isFatal := by
  cases fault <;> rfl

theorem ParseFault.code_erase (fault : ParseFault) : fault.erase.code = fault.code := by
  cases fault <;> rfl

end Erase

@[simp] theorem Span.join_blank : Span.join .blank .blank = .blank :=
  rfl

@[simp] theorem Expr.span_erase (number : NodeId → NodeId) (e : Expr) :
    (e.erase number).span = .blank := by
  cases e <;> rfl

@[simp] theorem eraseBlock_span (number : NodeId → NodeId) (b : Block) :
    (eraseBlock number b).span = .blank := by
  cases b
  rfl

namespace Cursor

variable (c : Cursor)

@[simp] theorem kind?_erase : c.erase.kind? = c.kind? := by
  obtain ⟨rest, last, nextId, errors, depth⟩ := c
  cases rest <;> rfl

@[simp] theorem kindAt_erase (n : Nat) : c.erase.kindAt n = c.kindAt n := by
  simp [kindAt, Cursor.erase, Function.comp_def, Token.erase]

@[simp] theorem atEnd_erase : c.erase.atEnd = c.atEnd := by
  simp [atEnd]

@[simp] theorem span_erase : c.erase.span = .blank := by
  obtain ⟨rest, last, nextId, errors, depth⟩ := c
  cases rest with
  | nil => cases last <;> rfl
  | cons t ts => rfl

@[simp] theorem lastSpan_erase : c.erase.lastSpan = .blank := by
  obtain ⟨rest, last, nextId, errors, depth⟩ := c
  cases last with
  | none => exact span_erase ⟨rest, none, nextId, errors, depth⟩
  | some span => rfl

@[simp] theorem found_erase : c.erase.found = c.found.erase := by
  obtain ⟨rest, last, nextId, errors, depth⟩ := c
  cases rest with
  | nil => rfl
  | cons t ts =>
    by_cases hend : t.kind = .eof
    · simp [found, Cursor.erase, Token.erase, hend, Found.erase]
    · simp [found, Cursor.erase, Token.erase, hend, Found.erase]

@[simp] theorem advance_erase : c.erase.advance = c.advance.erase := by
  obtain ⟨rest, last, nextId, errors, depth⟩ := c
  cases rest with
  | nil => rfl
  | cons t ts =>
    by_cases hend : t.kind = .eof
    · simp [advance, Cursor.erase, Token.erase, hend]
    · simp [advance, Cursor.erase, Token.erase, hend]

@[simp] theorem report_erase (e : ParseError) : c.erase.report e.erase = (c.report e).erase := by
  simp [report, Cursor.erase]

theorem skipStatementIn_erase (braces : Nat) (rest : List Token) (last : Option Span) :
    skipStatementIn braces (rest.map Token.erase) (last.map fun _ => .blank) =
      ((skipStatementIn braces rest last).1.map Token.erase,
        (skipStatementIn braces rest last).2.map fun _ => .blank) := by
  induction rest generalizing braces last with
  | nil => rfl
  | cons t ts ih =>
    have hnext (braces : Nat) := ih braces (some t.span)
    rw [Option.map_some] at hnext
    unfold skipStatementIn
    rw [List.map_cons]
    have hkind : t.erase.kind = t.kind := rfl
    have hspan : t.erase.span = .blank := rfl
    simp only [hkind, hspan, hnext]
    split
    · rfl
    split
    · rfl
    split
    · rfl
    split
    · split <;> rfl
    · rfl

@[simp] theorem skipStatement_erase : c.erase.skipStatement = c.skipStatement.erase := by
  have hskip := skipStatementIn_erase 0 c.rest c.last
  simp only [skipStatement, Cursor.erase, hskip]

theorem skipItemIn_erase (rest : List Token) (last : Option Span) :
    skipItemIn (rest.map Token.erase) (last.map fun _ => .blank) =
      ((skipItemIn rest last).1.map Token.erase,
        (skipItemIn rest last).2.map fun _ => .blank) := by
  induction rest generalizing last with
  | nil => rfl
  | cons t ts ih =>
    have hnext := ih (some t.span)
    rw [Option.map_some] at hnext
    unfold skipItemIn
    rw [List.map_cons]
    have hkind : t.erase.kind = t.kind := rfl
    have hspan : t.erase.span = .blank := rfl
    simp only [hkind, hspan, hnext]
    split <;> rfl

@[simp] theorem skipItem_erase : c.erase.skipItem = c.skipItem.erase := by
  have hskip := skipItemIn_erase c.rest c.last
  simp only [skipItem, Cursor.erase, hskip]

end Cursor

/-- From `c` to `d`, what is open is closed again, and nothing is reported that ends parsing. -/
structure Cursor.Keeps (c d : Cursor) : Prop where
  depth : d.depth = c.depth
  mild : ∀ e ∈ d.errors, e ∈ c.errors ∨ e.fault.isFatal = false

theorem Cursor.Keeps.of_errors {c d : Cursor} (hdepth : d.depth = c.depth)
    (herrors : d.errors = c.errors) : c.Keeps d :=
  ⟨hdepth, fun _ he => .inl (herrors ▸ he)⟩

theorem Cursor.Keeps.advance (c : Cursor) : c.Keeps c.advance := by
  unfold Cursor.advance
  split
  · exact .of_errors rfl rfl
  · split <;> exact .of_errors rfl rfl

theorem Cursor.Keeps.report (c : Cursor) {e : ParseError} (h : e.fault.isFatal = false) :
    c.Keeps (c.report e) := by
  refine ⟨rfl, fun e' he' => (List.mem_append.1 he').imp_right fun he => ?_⟩
  rw [List.mem_singleton.1 he, h]

namespace Parser

variable {α β : Type}

/-- A value as it is seen: erased or as it is. -/
def seen (V : Bool) (f : α → α) (a : α) : α :=
  bif V then f a else a

@[simp] theorem seen_false (f : α → α) (a : α) : seen false f a = a :=
  rfl

@[simp] theorem seen_true (f : α → α) (a : α) : seen true f a = f a :=
  rfl

/-- Two parsers make the same steps, the second as it sees them, over parts that are related. -/
inductive Alike (V : Bool) (R : ∀ α : Type, (α → α) → Parser α → Parser α → Prop) :
    ∀ {α : Type}, (α → α) → Parser α → Parser α → Prop
  | part {α : Type} {f : α → α} {m m' : Parser α} (h : R α f m m') : Alike V R f m m'
  | pure {α : Type} {f : α → α} {a b : α} (h : seen V f a = b) : Alike V R f (pure a) (pure b)
  | bind {α β : Type} {f : α → α} {g : β → β} {m m' : Parser α} {k k' : α → Parser β}
      (hm : Alike V R f m m') (hk : ∀ a, Alike V R g (k a) (k' (seen V f a))) :
      Alike V R g (m >>= k) (m' >>= k')
  | step {α : Type} {f : α → α} {g g' : Cursor → α × Cursor}
      (hsame : ∀ c, g' (seen V Cursor.erase c) = (seen V f (g c).1, seen V Cursor.erase (g c).2))
      (hkeeps : ∀ c : Cursor, c.Keeps (g c).2) : Alike V R f (modifyGet g) (modifyGet g')
  | throw {α : Type} {f : α → α} {e : ParseError} (h : e.fault.isFatal = false) :
      Alike V R f (throw e) (throw (seen V ParseError.erase e))
  | recovering {α : Type} {f : α → α} {m m' : Parser α} (hm : Alike V R f m m') :
      Alike V R (Option.map f) (recovering m) (recovering m')

variable {V : Bool} {R : ∀ α : Type, (α → α) → Parser α → Parser α → Prop}

section Rules

variable {f : α → α} {g : β → β} {m m' p p' : Parser α} {k k' : α → Parser β}

/-- A value in which nothing can be erased. -/
theorem Alike.next (hm : Alike V R (fun a => a) m m') (hk : ∀ a, Alike V R g (k a) (k' a)) :
    Alike V R g (m >>= k) (m' >>= k') := by
  refine hm.bind fun a => ?_
  have hsame : seen V (fun a => a) a = a := by cases V <;> rfl
  rw [hsame]
  exact hk a

theorem Alike.map {h : α → β} (hm : Alike V R f m m') (hh : ∀ a, g (h a) = h (f a)) :
    Alike V R g (h <$> m) (h <$> m') := by
  rw [map_eq_pure_bind, map_eq_pure_bind]
  refine hm.bind fun a => .pure ?_
  cases V with
  | false => rfl
  | true => exact hh a

theorem Alike.ite {cond : Prop} [Decidable cond] (hm : Alike V R f m m') (hp : Alike V R f p p') :
    Alike V R f (if cond then m else p) (if cond then m' else p') := by
  split
  · exact hm
  · exact hp

/-- A step that is only made under a condition. -/
theorem Alike.after {cond : Prop} [Decidable cond] {k k' : Parser β} (hm : Alike V R f m m')
    (hk : Alike V R g k k') :
    Alike V R g (if cond then m >>= fun _ => k else k) (if cond then m' >>= fun _ => k' else k') :=
  .ite (hm.bind fun _ => hk) hk

theorem alike_get : Alike V R Cursor.erase get get := by
  have hget : Alike V R Cursor.erase (modifyGet fun c => (c, c)) (modifyGet fun c => (c, c)) :=
    .step (fun _ => rfl) fun _ => .of_errors rfl rfl
  exact hget

theorem Alike.fail {fault : Found → ParseFault}
    (h : ∀ found, fault found.erase = (fault found).erase ∧ (fault found).isFatal = false) :
    Alike V R f (Parser.fail fault) (Parser.fail fault) := by
  refine alike_get.bind fun c => ?_
  have hsame : ParseError.mk (fault (seen V Cursor.erase c).found) (seen V Cursor.erase c).span =
      seen V ParseError.erase ⟨fault c.found, c.span⟩ := by
    cases V with
    | false => rfl
    | true => simp [ParseError.erase, (h c.found).1]
  rw [hsame]
  exact .throw (h _).2

end Rules

section Tokens

theorem alike_advance : Alike V R (fun x => x) advance advance := by
  refine .step (g := fun c => ((), c.advance)) (fun c => ?_) Cursor.Keeps.advance
  cases V with
  | false => rfl
  | true => exact congrArg (Prod.mk ()) c.advance_erase

theorem alike_freshId : Alike V R (fun id => id) freshId freshId := by
  refine .step (fun c => ?_) fun _ => .of_errors rfl rfl
  cases V <;> rfl

/-- What is read off a cursor. -/
theorem alike_gets {f : α → α} {read : Cursor → α} (h : ∀ c, f (read c) = read c.erase) :
    Alike V R f (get >>= fun c => Pure.pure (read c)) (get >>= fun c => Pure.pure (read c)) := by
  refine alike_get.bind fun c => .pure ?_
  cases V with
  | false => rfl
  | true => exact h c

theorem alike_kind : Alike V R (fun kind => kind) kind? kind? :=
  alike_gets fun c => c.kind?_erase.symm

theorem alike_span : Alike V R (fun _ => .blank) span span :=
  alike_gets fun c => c.span_erase.symm

theorem alike_lastSpan : Alike V R (fun _ => .blank) lastSpan lastSpan :=
  alike_gets fun c => c.lastSpan_erase.symm

theorem alike_tokensLeft : Alike V R (fun n => n) tokensLeft tokensLeft :=
  alike_gets fun _ => (List.length_map _).symm

theorem alike_isAt (kind : TokenKind) : Alike V R (fun b => b) (isAt kind) (isAt kind) :=
  alike_gets fun c => by rw [c.kind?_erase]

theorem alike_expect (kind : TokenKind) :
    Alike V R (fun _ => .blank) (expect kind) (expect kind) := by
  refine (alike_isAt kind).next fun found => .ite ?_ (.fail fun _ => ⟨rfl, rfl⟩)
  exact alike_span.bind fun _ => alike_advance.bind fun _ => .pure rfl

theorem alike_ident : Alike V R Ident.erase ident ident := by
  refine alike_kind.next fun kind => ?_
  split
  · exact alike_span.bind fun _ => alike_advance.bind fun _ => .pure (by cases V <;> rfl)
  · exact .fail fun _ => ⟨rfl, rfl⟩

end Tokens

section Expressions

theorem alike_chainFrom {op? : TokenKind → Option BinOp} {operand operand' : Parser Expr}
    (hoperand : Alike V R Expr.unspanned operand operand') (rounds : Nat) (left : Expr) :
    Alike V R Expr.unspanned (chainFrom op? operand rounds left)
      (chainFrom op? operand' rounds (seen V Expr.unspanned left)) := by
  induction rounds generalizing left with
  | zero => exact .pure (by cases V <;> rfl)
  | succ rounds ih =>
    unfold chainFrom
    refine alike_kind.next fun kind => ?_
    split
    · exact .pure (by cases V <;> rfl)
    · rename_i op _
      refine alike_span.bind fun opSpan => alike_advance.bind fun _ => ?_
      refine hoperand.bind fun right => alike_freshId.next fun id => ?_
      have hnext := ih (.binary id (Span.join left.span right.span) op opSpan left right)
      cases V with
      | false => exact hnext
      | true => simpa [seen, Expr.unspanned] using hnext

theorem alike_chain {op? : TokenKind → Option BinOp} {operand operand' : Parser Expr}
    (hoperand : Alike V R Expr.unspanned operand operand') :
    Alike V R Expr.unspanned (chain op? operand) (chain op? operand') :=
  hoperand.bind fun first =>
    alike_tokensLeft.next fun rounds => alike_chainFrom hoperand rounds first

theorem alike_fieldsFrom (rounds : Nat) (base : Expr) :
    Alike V R Expr.unspanned (fieldsFrom rounds base)
      (fieldsFrom rounds (seen V Expr.unspanned base)) := by
  induction rounds generalizing base with
  | zero => exact .pure (by cases V <;> rfl)
  | succ rounds ih =>
    unfold fieldsFrom
    refine (alike_isAt _).next fun found => .ite ?_ (.pure (by cases V <;> rfl))
    refine alike_advance.bind fun _ => alike_ident.bind fun name => ?_
    refine alike_freshId.next fun id => ?_
    have hnext := ih (.field id (Span.join base.span name.span) base name)
    cases V with
    | false => exact hnext
    | true => simpa [seen, Expr.unspanned] using hnext

theorem alike_primary {inner inner' : Parser Expr}
    (hinner : Alike V R Expr.unspanned inner inner') :
    Alike V R Expr.unspanned (primary inner) (primary inner') := by
  have hleaf {leaf leaf' : NodeId → Expr} (h : ∀ id, seen V Expr.unspanned (leaf id) = leaf' id) :
      Alike V R Expr.unspanned (advance >>= fun _ => freshId >>= fun id => Pure.pure (leaf id))
        (advance >>= fun _ => freshId >>= fun id => Pure.pure (leaf' id)) :=
    alike_advance.bind fun _ => alike_freshId.next fun id => .pure (h id)
  refine alike_span.bind fun start => alike_kind.next fun kind => ?_
  split
  iterate 5 exact hleaf fun _ => by cases V <;> rfl
  · refine alike_advance.bind fun _ => (alike_expect _).bind fun _ => ?_
    refine hinner.bind fun bound => (alike_expect _).bind fun close => ?_
    exact alike_freshId.next fun id => .pure (by cases V <;> rfl)
  · refine alike_advance.bind fun _ => hinner.bind fun e => ?_
    exact (alike_expect _).bind fun _ => .pure (by cases V <;> rfl)
  · exact .fail fun _ => ⟨rfl, rfl⟩

theorem alike_accessed {inner inner' : Parser Expr}
    (hinner : Alike V R Expr.unspanned inner inner') :
    Alike V R Expr.unspanned (accessed inner) (accessed inner') :=
  (alike_primary hinner).bind fun base =>
    alike_tokensLeft.next fun rounds => alike_fieldsFrom rounds base

/-- The operator levels, between where an expression is opened and where it is closed. -/
def operatorLevels (inner : Parser Expr) : Parser Expr :=
  chain conjunctionOp <| chain comparisonOp <| chain additiveOp <| chain multiplicativeOp <|
    accessed inner

theorem alike_operatorLevels {inner inner' : Parser Expr}
    (hinner : Alike V R Expr.unspanned inner inner') :
    Alike V R Expr.unspanned (operatorLevels inner) (operatorLevels inner') :=
  alike_chain (alike_chain (alike_chain (alike_chain (alike_accessed hinner))))

end Expressions

section Types

theorem alike_modifiersFrom (rounds : Nat) :
    Alike V R (fun ms => ms) (modifiersFrom rounds) (modifiersFrom rounds) := by
  induction rounds with
  | zero => exact .pure (by cases V <;> rfl)
  | succ rounds ih =>
    refine alike_kind.next fun kind => ?_
    split
    · exact alike_advance.bind fun _ => ih.bind fun _ => .pure (by cases V <;> rfl)
    · exact alike_advance.bind fun _ => ih.bind fun _ => .pure (by cases V <;> rfl)
    · exact .pure (by cases V <;> rfl)

theorem alike_typeName : Alike V R TypeName.erase typeName typeName := by
  refine alike_kind.next fun kind => ?_
  split
  iterate 4 exact alike_advance.bind fun _ => .pure (by cases V <;> rfl)
  · exact alike_ident.bind fun _ => .pure (by cases V <;> rfl)
  · exact .fail fun _ => ⟨rfl, rfl⟩

theorem alike_typeRef : Alike V R TypeRef.erase typeRef typeRef := by
  refine alike_span.bind fun start => (alike_isAt _).next fun isConst => ?_
  refine .after alike_advance ?_
  refine alike_typeName.bind fun base => alike_tokensLeft.next fun rounds => ?_
  refine (alike_modifiersFrom rounds).next fun ms => alike_lastSpan.bind fun stop => ?_
  exact .pure (by cases V <;> rfl)

end Types

section Statements

variable {expr expr' : Parser Expr} {block block' : Parser Block}

section Parts

variable (hexpr : Alike V R Expr.unspanned expr expr')
include hexpr

theorem alike_argsFrom (rounds : Nat) :
    Alike V R (List.map Expr.unspanned) (argsFrom expr rounds) (argsFrom expr' rounds) := by
  induction rounds with
  | zero => exact .pure (by cases V <;> rfl)
  | succ rounds ih =>
    refine (alike_isAt _).next fun found => .ite ?_ (.pure (by cases V <;> rfl))
    exact alike_advance.bind fun _ => hexpr.bind fun e => ih.bind fun es =>
      .pure (by cases V <;> rfl)

theorem alike_args : Alike V R (List.map Expr.unspanned) (args expr) (args expr') := by
  refine (alike_isAt _).next fun found => .ite (.pure (by cases V <;> rfl)) ?_
  refine hexpr.bind fun e => alike_tokensLeft.next fun rounds => ?_
  exact (alike_argsFrom hexpr rounds).bind fun es => .pure (by cases V <;> rfl)

theorem alike_call : Alike V R Call.unspanned (call expr) (call expr') := by
  refine alike_ident.bind fun callee => alike_freshId.next fun id => ?_
  refine (alike_expect _).bind fun _ => (alike_args hexpr).bind fun arguments => ?_
  exact (alike_expect _).bind fun close => .pure (by cases V <;> rfl)

/-- An expression that may be left out. -/
theorem alike_some : Alike V R (Option.map Expr.unspanned) (some <$> expr) (some <$> expr') :=
  hexpr.map fun _ => rfl

theorem alike_varDecl : Alike V R VarDecl.unspanned (varDecl expr) (varDecl expr') := by
  refine alike_typeRef.bind fun type => alike_freshId.next fun id => ?_
  refine alike_ident.bind fun name => (alike_isAt _).next fun found => .ite ?_ ?_
  · refine alike_advance.bind fun _ => (alike_some hexpr).bind fun init => ?_
    exact (alike_expect _).bind fun close => .pure (by cases V <;> rfl)
  · exact (alike_expect _).bind fun close => .pure (by cases V <;> rfl)

theorem alike_assignment : Alike V R Stmt.unspanned (assignment expr) (assignment expr') := by
  refine hexpr.bind fun target => (alike_expect _).bind fun _ => ?_
  refine hexpr.bind fun value => (alike_expect _).bind fun close => .pure ?_
  cases V <;> simp [Expr.unspanned]

theorem alike_callStmt : Alike V R Stmt.unspanned (callStmt expr) (callStmt expr') := by
  refine (alike_call hexpr).bind fun c => ?_
  exact (alike_expect _).bind fun close => .pure (by cases V <;> rfl)

theorem alike_condition : Alike V R Expr.unspanned (condition expr) (condition expr') := by
  refine (alike_expect _).bind fun _ => hexpr.bind fun e => ?_
  exact (alike_expect _).bind fun _ => .pure (by cases V <;> rfl)

theorem alike_returnStmt : Alike V R Stmt.unspanned (returnStmt expr) (returnStmt expr') := by
  refine (alike_expect _).bind fun start => (alike_isAt _).next fun found => .ite ?_ ?_
  · exact (alike_expect _).bind fun close => .pure (by cases V <;> rfl)
  · refine (alike_some hexpr).bind fun value => ?_
    exact (alike_expect _).bind fun close => .pure (by cases V <;> rfl)

theorem alike_deferStmt : Alike V R Stmt.unspanned (deferStmt expr) (deferStmt expr') := by
  refine (alike_expect _).bind fun start => (alike_call hexpr).bind fun c => ?_
  exact (alike_expect _).bind fun close => .pure (by cases V <;> rfl)

theorem alike_varDeclStmt :
    Alike V R Stmt.unspanned (Stmt.varDecl <$> varDecl expr) (Stmt.varDecl <$> varDecl expr') :=
  (alike_varDecl hexpr).map fun _ => rfl

theorem alike_namedStmt (name : String) :
    Alike V R Stmt.unspanned (namedStmt expr name) (namedStmt expr' name) := by
  have hfollows (ts : List Token) :
      declaratorFollows (ts.map Token.erase) = declaratorFollows ts := by
    induction ts with
    | nil => rfl
    | cons t ts ih =>
      simp only [List.map_cons, declaratorFollows, ih]
      rfl
  refine alike_get.bind fun c => ?_
  have htail : declaratorFollows (seen V Cursor.erase c).rest.tail =
      declaratorFollows c.rest.tail := by
    cases V with
    | false => rfl
    | true => exact (congrArg declaratorFollows List.map_tail.symm).trans (hfollows _)
  have hkindAt : (seen V Cursor.erase c).kindAt 1 = c.kindAt 1 := by
    cases V with
    | false => rfl
    | true => exact c.kindAt_erase 1
  rw [htail, hkindAt]
  refine .ite (.fail fun _ => ⟨rfl, rfl⟩) (.ite ?_ (.ite ?_ ?_))
  · exact alike_varDeclStmt hexpr
  · exact alike_callStmt hexpr
  · exact alike_assignment hexpr

variable (hblock : Alike V R Block.unspanned block block')
include hblock

theorem alike_ifStmt : Alike V R Stmt.unspanned (ifStmt expr block) (ifStmt expr' block') := by
  refine (alike_expect _).bind fun start => (alike_condition hexpr).bind fun cond => ?_
  refine hblock.bind fun thenBody => (alike_isAt _).next fun found => .ite ?_ ?_
  · refine alike_advance.bind fun _ => hblock.bind fun elseBody => .pure ?_
    cases V <;> simp [Expr.unspanned]
  · refine .pure ?_
    cases V <;> simp [Expr.unspanned]

theorem alike_whileStmt :
    Alike V R Stmt.unspanned (whileStmt expr block) (whileStmt expr' block') := by
  refine (alike_expect _).bind fun start => (alike_condition hexpr).bind fun cond => ?_
  refine hblock.bind fun body => .pure ?_
  cases V <;> simp [Expr.unspanned]

theorem alike_forStmt : Alike V R Stmt.unspanned (forStmt expr block) (forStmt expr' block') := by
  refine (alike_expect _).bind fun start => alike_freshId.next fun id => ?_
  refine (alike_expect _).bind fun _ => alike_ident.bind fun var => ?_
  refine (alike_expect _).bind fun _ => hexpr.bind fun iter => ?_
  refine (alike_expect _).bind fun _ => hblock.bind fun body => .pure ?_
  cases V <;> simp [Expr.unspanned]

theorem alike_statement :
    Alike V R Stmt.unspanned (statement expr block) (statement expr' block') := by
  refine alike_kind.next fun kind => ?_
  split
  · exact hblock.map fun _ => rfl
  · exact alike_ifStmt hexpr hblock
  · exact alike_whileStmt hexpr hblock
  · exact alike_forStmt hexpr hblock
  · exact alike_returnStmt hexpr
  · exact alike_deferStmt hexpr
  iterate 5 exact alike_varDeclStmt hexpr
  · exact alike_namedStmt hexpr _
  iterate 6 exact alike_assignment hexpr
  · exact .fail fun _ => ⟨rfl, rfl⟩

end Parts

theorem alike_itemsFrom {f : α → α} {item item' : Parser α} (hitem : Alike V R f item item')
    (rounds : Nat) : Alike V R (List.map f) (itemsFrom item rounds) (itemsFrom item' rounds) := by
  induction rounds with
  | zero => exact .pure (by cases V <;> rfl)
  | succ rounds ih =>
    refine (alike_isAt _).next fun atBrace => alike_get.bind fun c => ?_
    have hend : (seen V Cursor.erase c).atEnd = c.atEnd := by
      cases V with
      | false => rfl
      | true => exact c.atEnd_erase
    rw [hend]
    refine .ite (.pure (by cases V <;> rfl)) (hitem.recovering.bind fun found => ?_)
    cases found with
    | none =>
      have hnone : seen V (Option.map f) none = none := by cases V <;> rfl
      rw [hnone]
      exact ih
    | some a =>
      have hsome : seen V (Option.map f) (some a) = some (seen V f a) := by cases V <;> rfl
      rw [hsome]
      exact ih.bind fun items => .pure (by cases V <;> rfl)

/-- A block, between where it is opened and where it is closed. -/
def blockIn (stmt : Parser Stmt) : Parser Block := do
  let start ← expectMark .lbrace
  let id ← freshId
  let stmts ← itemsFrom stmt (← tokensLeft)
  if ← isAtMark .rbrace then
    let close ← span
    advance
    return ⟨id, Span.join start close, stmts⟩
  else
    let c ← get
    set (c.report ⟨.unclosedBlock c.found, c.span⟩)
    return ⟨id, Span.join start c.lastSpan, stmts⟩

theorem alike_blockIn {stmt stmt' : Parser Stmt} (hstmt : Alike V R Stmt.unspanned stmt stmt') :
    Alike V R Block.unspanned (blockIn stmt) (blockIn stmt') := by
  refine (alike_expect _).bind fun start => alike_freshId.next fun id => ?_
  refine alike_tokensLeft.next fun rounds => (alike_itemsFrom hstmt rounds).bind fun stmts => ?_
  have hbody (span : Span) : Block.unspanned ⟨id, span, stmts⟩ =
      ⟨id, .blank, stmts.map Stmt.unspanned⟩ := by
    rw [Block.unspanned, eraseBlock, eraseStmts_eq_map]
  refine (alike_isAt _).next fun closed => .ite ?_ ?_
  · exact alike_span.bind fun close => alike_advance.bind fun _ =>
      .pure (by cases V <;> simp [hbody])
  · -- the block is not closed, which is reported
    have hreport : Alike V R Block.unspanned
        (modifyGet fun c => (BlockOf.mk id (Span.join start c.lastSpan) stmts,
          c.report ⟨.unclosedBlock c.found, c.span⟩))
        (modifyGet fun c => (BlockOf.mk id (Span.join (seen V (fun _ => .blank) start) c.lastSpan)
          (seen V (List.map Stmt.unspanned) stmts),
          c.report ⟨.unclosedBlock c.found, c.span⟩)) := by
      refine .step (fun c => ?_) fun c => .report c rfl
      cases V with
      | false => rfl
      | true => simp [hbody, ← Cursor.report_erase, ParseError.erase, ParseFault.erase]
    exact hreport

end Statements

section Items

variable {block block' : Parser Block} {body body' : Parser CtorBody}

theorem alike_ownName (className : String) {fault : String → ParseFault}
    (h : ∀ name, fault name = (fault name).erase ∧ (fault name).isFatal = false) :
    Alike V R (fun x => x) (ownName className fault) (ownName className fault) := by
  refine alike_ident.bind fun name => ?_
  have hname : (seen V Ident.erase name).name = name.name := by cases V <;> rfl
  have hthrow : ParseError.mk (fault name.name) (seen V Ident.erase name).span =
      seen V ParseError.erase ⟨fault name.name, name.span⟩ := by
    cases V with
    | false => rfl
    | true => exact congrArg (ParseError.mk · .blank) (h _).1
  rw [hname, hthrow]
  exact .ite (.throw (h _).2) (.pure (by cases V <;> rfl))

theorem alike_skipIdent : Alike V R (fun x => x) skipIdent skipIdent := by
  refine alike_kind.next fun kind => ?_
  split
  · exact alike_advance
  · exact .pure (by cases V <;> rfl)

theorem alike_ctorParameters (className : String) :
    Alike V R (fun kind => kind) (ctorParameters className) (ctorParameters className) := by
  refine alike_kind.next fun kind => ?_
  split
  · exact .pure (by cases V <;> rfl)
  · refine alike_advance.bind fun _ => (alike_ownName _ fun _ => ⟨rfl, rfl⟩).bind fun _ => ?_
    exact (alike_expect _).bind fun _ => alike_skipIdent.bind fun _ => .pure (by cases V <;> rfl)
  · refine (alike_ownName _ fun _ => ⟨rfl, rfl⟩).bind fun _ => ?_
    exact (alike_expect _).bind fun _ => alike_skipIdent.bind fun _ => .pure (by cases V <;> rfl)
  · exact .fail fun _ => ⟨rfl, rfl⟩

theorem alike_ctorBody (hblock : Alike V R Block.unspanned block block') :
    Alike V R CtorBody.unspanned (ctorBodyOver block) (ctorBodyOver block') := by
  refine (alike_isAt _).next fun atBrace => .ite ?_ ?_
  · exact hblock.map fun _ => rfl
  refine (alike_isAt _).next fun atAssign => .ite ?_ (.fail fun _ => ⟨rfl, rfl⟩)
  refine alike_advance.bind fun _ => Alike.bind (f := CtorBody.unspanned) ?_ fun body => ?_
  · -- the word behind the `=`
    refine alike_kind.next fun kind => ?_
    split
    · exact .pure (by cases V <;> rfl)
    · exact .ite (.pure (by cases V <;> rfl)) (.fail fun _ => ⟨rfl, rfl⟩)
    · exact .fail fun _ => ⟨rfl, rfl⟩
  · exact alike_advance.bind fun _ => (alike_expect _).bind fun _ => .pure (by cases V <;> rfl)

theorem alike_destructor (hbody : Alike V R CtorBody.unspanned body body') (className : String) :
    Alike V R CtorDecl.unspanned (destructorOver body className)
      (destructorOver body' className) := by
  refine (alike_expect _).bind fun start => ?_
  refine (alike_ownName _ fun _ => ⟨rfl, rfl⟩).bind fun _ => ?_
  refine (alike_expect _).bind fun _ => (alike_expect _).bind fun _ => ?_
  exact hbody.bind fun body => alike_lastSpan.bind fun stop => .pure (by cases V <;> rfl)

theorem alike_constructor (hbody : Alike V R CtorBody.unspanned body body') (className : String)
    (start : Span) (isExplicit : Bool) :
    Alike V R CtorDecl.unspanned (constructorOver body className start isExplicit)
      (constructorOver body' className (seen V (fun _ => .blank) start) isExplicit) := by
  refine alike_advance.bind fun _ => alike_advance.bind fun _ => ?_
  refine (alike_ctorParameters _).next fun kind => (alike_expect _).bind fun _ => ?_
  exact hbody.bind fun body => alike_lastSpan.bind fun stop => .pure (by cases V <;> rfl)

theorem alike_fieldDef : Alike V R FieldDef.erase fieldDef fieldDef := by
  refine alike_typeRef.bind fun type => alike_ident.bind fun name => ?_
  exact (alike_expect _).bind fun close => .pure (by cases V <;> rfl)

/-- A member of a class without its spans. -/
abbrev Member.unspanned (m : Member) : Member :=
  m.erase fun id => id

theorem alike_isAtCtor (className : String) :
    Alike V R (fun b => b) (isAtCtor className) (isAtCtor className) :=
  alike_gets fun c => by rw [c.kind?_erase, c.kindAt_erase]

theorem alike_member (hbody : Alike V R CtorBody.unspanned body body') (className : String) :
    Alike V R Member.unspanned (memberOver body className) (memberOver body' className) := by
  refine (alike_isAt _).next fun atTilde => .ite ?_ ?_
  · exact (alike_destructor hbody className).map fun _ => rfl
  refine alike_span.bind fun start => (alike_isAt _).next fun isExplicit => ?_
  refine .after alike_advance ((alike_isAtCtor className).next fun atCtor => .ite ?_ (.ite ?_ ?_))
  · exact (alike_constructor hbody className start isExplicit).map fun _ => rfl
  · exact .fail fun _ => ⟨rfl, rfl⟩
  · exact alike_fieldDef.map fun _ => rfl

theorem alike_classDef {member member' : String → Parser Member}
    (hmember : ∀ name, Alike V R Member.unspanned (member name) (member' name)) :
    Alike V R ClassDef.unspanned (classDefOver member) (classDefOver member') := by
  refine (alike_expect _).bind fun start => alike_freshId.next fun id => ?_
  refine alike_ident.bind fun name => (alike_expect _).bind fun _ => ?_
  refine alike_tokensLeft.next fun rounds => ?_
  have hname : (seen V Ident.erase name).name = name.name := by cases V <;> rfl
  rw [hname]
  refine (alike_itemsFrom (hmember name.name) rounds).bind fun members => ?_
  refine (alike_expect _).bind fun close => (alike_isAt _).next fun found => ?_
  have hclass (stop stop' : Span) (h : seen V (fun _ => .blank) stop = stop') :
      seen V ClassDef.unspanned ⟨id, Span.join start stop, name, members.filterMap Member.field?,
        members.filterMap Member.ctor?⟩ =
      ⟨id, Span.join (seen V (fun _ => .blank) start) stop', seen V Ident.erase name,
        (seen V (List.map Member.unspanned) members).filterMap Member.field?,
        (seen V (List.map Member.unspanned) members).filterMap Member.ctor?⟩ := by
    subst h
    cases V with
    | false => rfl
    | true =>
      simp only [seen_true, ClassDef.unspanned, ClassDef.erase, filterMap_field?_erase,
        filterMap_ctor?_erase, Span.join_blank]
  refine .ite ?_ ?_
  · exact alike_span.bind fun s => alike_advance.bind fun _ => .pure (hclass s _ rfl)
  · exact .pure (hclass close _ rfl)

theorem alike_function (hblock : Alike V R Block.unspanned block block') :
    Alike V R Function.unspanned (functionOver block) (functionOver block') := by
  refine (alike_expect _).bind fun start => alike_freshId.next fun id => ?_
  refine alike_ident.bind fun name => (alike_expect _).bind fun _ => ?_
  refine (alike_isAt _).next fun closed => .ite ?_ (.fail fun _ => ⟨rfl, rfl⟩)
  refine alike_advance.bind fun _ => hblock.bind fun body => .pure ?_
  cases V <;> simp

/-- An item without its spans. -/
abbrev Item.unspanned (i : Item) : Item :=
  i.erase fun id => id

/-- The parser of items over another parser of blocks. -/
def itemWith (block : Parser Block) : Parser Item :=
  itemOver (functionOver block) (classDefOver (memberOver (ctorBodyOver block)))

theorem alike_item (hblock : Alike V R Block.unspanned block block') :
    Alike V R Item.unspanned (itemWith block) (itemWith block') := by
  refine alike_kind.next fun kind => ?_
  split
  · exact (alike_function hblock).map fun _ => rfl
  · exact (alike_classDef (alike_member (alike_ctorBody hblock))).map fun _ => rfl
  · exact .fail fun _ => ⟨rfl, rfl⟩

end Items

end Parser

end DeferLang
