import DeferLang.Proofs.ExitCleanup
import DeferLang.Proofs.LexicalScoping

/-!
# What can be assigned to

Checking reports an assignment to what is no place, and to a plain variable that is
declared as a constant.  It reports nothing else about the left side: where a field is
assigned to, nobody asks whether the variable in front of it is a constant.
-/

namespace DeferLang

namespace Expr

/-- The variable that a place belongs to, with its node. -/
def root? : Expr → Option (NodeId × Ident)
  | .var id name => some (id, name)
  | .field _ _ base _ => base.root?
  | _ => none

theorem exists_root_of_isLvalue {e : Expr} (h : e.isLvalue = true) : ∃ v, e.root? = some v := by
  induction e with
  | var id name => exact ⟨(id, name), rfl⟩
  | field id span base name ih => exact ih h
  | _ => contradiction

theorem mem_vars_of_root {e : Expr} {v : NodeId × Ident} (h : e.root? = some v) : v ∈ e.vars := by
  induction e with
  | var id name =>
    obtain rfl := Option.some.inj h
    exact List.mem_singleton_self _
  | field id span base name ih => exact ih h
  | _ => contradiction

/-- A plain variable belongs to itself. -/
theorem exists_root_of_asVar {e : Expr} {name : Ident} (h : e.asVar? = some name) :
    ∃ id, e.root? = some (id, name) := by
  cases e with
  | var id other =>
    obtain rfl := Option.some.inj h
    exact ⟨id, rfl⟩
  | _ => contradiction

/-- Nothing is wrong with a place, if it is not a plain constant. -/
theorem targetErrors_eq_nil {isConst : String → Bool} {left : Expr}
    (h : left.targetErrors isConst = []) :
    left.isLvalue = true ∧ ∀ name, left.asVar? = some name → isConst name.name = false := by
  rw [targetErrors] at h
  by_cases hlvalue : left.isLvalue = true
  · refine ⟨hlvalue, fun name hname => ?_⟩
    rw [if_pos hlvalue, hname] at h
    by_contra hconst
    rw [Bool.not_eq_false] at hconst
    simp [hconst] at h
  · rw [if_neg hlvalue] at h
    contradiction

end Expr

/-- The symbol of the variable that a place belongs to. -/
def Context.rootSymbol? (ctx : Context) (e : Expr) : Option Symbol :=
  (e.root?.bind fun v => ctx.resolve? v.1).bind ctx.symbols.get?

theorem TypingFault.severity_of_isAboutTarget {fault : TypingFault}
    (h : fault.isAboutTarget = true) : fault.severity = .error := by
  cases fault with
  | notAssignable | constAssigned name => rfl
  | _ => contradiction

/-- A target is read where it is assigned to. -/
theorem Point.vars_of_target {q : Point} {left : Expr} (h : q.target? = some left) :
    ∀ v ∈ left.vars, v ∈ q.vars := by
  intro v hv
  obtain ⟨s, hnext, hs⟩ := Option.bind_eq_some_iff.1 h
  rw [Point.vars_eq hnext]
  cases s with
  | assign span left' value =>
    obtain rfl := Option.some.inj hs
    exact List.mem_append_left _ hv
  | _ => contradiction

section Program

variable {p : Program}

/-- Every symbol of a program is as its declaration says. -/
theorem flagged_check (hids : p.ids.Nodup) :
    p.check.1.symbols.symbols.map (fun symbol =>
      ((⟨symbol.decl, symbol.name⟩ : LocalVar), symbol.isConst)) = introduced p.points :=
  (List.append_nil _).symm.trans (Check.leads_program hids rfl).2.flagged_eq

/-- What is reported about targets, in order. -/
theorem targetErrorsIn_check (hids : p.ids.Nodup) :
    targetErrorsIn p.check.2 = p.points.flatMap (Point.targetErrors p.constants) :=
  (Check.leads_program hids rfl).1.targets_eq

/-- A variable has a symbol with its declaration's flag. -/
theorem exists_symbol_of_mem_decls (hids : p.ids.Nodup) {x : LocalVar} (hx : x ∈ p.decls) :
    ∃ symbol, p.check.1.symbols.get? (p.decls.idxOf x) = some symbol ∧
      (⟨symbol.decl, symbol.name⟩ : LocalVar) = x ∧
      symbol.isConst = decide (x ∈ p.constants) := by
  have hdecls := map_fst_introduced_points p
  have hall : ((introduced p.points).map Prod.fst).Nodup := by
    rw [hdecls]
    exact (nodup_decls hids).of_map
  have hplace := List.getElem?_idxOf hx
  rw [← hdecls, List.getElem?_map, Option.map_eq_some_iff] at hplace
  obtain ⟨⟨y, flag⟩, hflag, rfl⟩ := hplace
  have hconst := flag_of_place hall hflag
  rw [← flagged_check hids, List.getElem?_map, Option.map_eq_some_iff, flagged_check hids,
    hdecls] at hflag
  obtain ⟨symbol, hsymbol, heq⟩ := hflag
  obtain ⟨rfl, rfl⟩ := Prod.mk.inj heq
  exact ⟨symbol, hsymbol, rfl, hconst⟩

/-- In a program without errors nothing is wrong with a target. -/
theorem targetErrors_of_no_errors (hids : p.ids.Nodup)
    (hclean : ∀ e ∈ p.check.2, e.fault.severity ≠ .error) {q : Point} (hq : q ∈ p.points) :
    q.targetErrors p.constants = [] := by
  refine List.eq_nil_iff_forall_not_mem.2 fun e he => ?_
  have hmem : e ∈ targetErrorsIn p.check.2 := by
    rw [targetErrorsIn_check hids]
    exact List.mem_flatMap.2 ⟨q, hq, he⟩
  obtain ⟨hmem, htarget⟩ := List.mem_filter.1 hmem
  exact hclean e hmem (TypingFault.severity_of_isAboutTarget htarget)

end Program

/-- What is reported about the targets of assignments.  Without errors every target belongs to a
variable that its name stands for there, and is no plain constant. -/
theorem assignment_targets_judged (ts : List Token) :
    let p := (parseProgram ts).1
    targetErrorsIn p.check.2 = p.points.flatMap (Point.targetErrors p.constants) ∧
      ((∀ e ∈ p.check.2, e.fault.severity ≠ .error) →
        ∀ q ∈ p.points, ∀ left, q.target? = some left →
          ∃ id name symbol, left.root? = some (id, name) ∧
            p.check.1.rootSymbol? left = some symbol ∧
            q.lookup? name.name = some ⟨symbol.decl, symbol.name⟩ ∧
            (symbol.isConst = true ↔ ⟨symbol.decl, symbol.name⟩ ∈ p.constants) ∧
            (symbol.isConst = true → left.asVar? = none)) := by
  have hids := nodup_ids_parseProgram ts
  intro p
  change p.ids.Nodup at hids
  refine ⟨targetErrorsIn_check hids, fun hclean q hq left htarget => ?_⟩
  have hnone := targetErrors_of_no_errors hids hclean hq
  rw [Point.targetErrors, htarget, Option.elim_some] at hnone
  obtain ⟨hlvalue, hplain⟩ := Expr.targetErrors_eq_nil hnone
  obtain ⟨⟨id, name⟩, hroot⟩ := Expr.exists_root_of_isLvalue hlvalue
  have hvar := Point.vars_of_target htarget _ (Expr.mem_vars_of_root hroot)
  cases hlookup : q.lookup? name.name with
  | none =>
      have herror := undeclaredError_mem_check hids hq hvar hlookup
      exact absurd rfl (hclean _ herror)
  | some x =>
      obtain ⟨sc, hsc, hown⟩ := Point.exists_of_lookup? hlookup
      obtain ⟨symbol, hsymbol, rfl, hconst⟩ :=
        exists_symbol_of_mem_decls hids (mem_decls_of_mem_points hq hsc hown)
      have hresolve := resolve?_check hids hq hvar
      rw [hlookup, Option.map_some] at hresolve
      refine ⟨id, name, symbol, hroot, ?_, hlookup, ?_, fun htrue => ?_⟩
      · rw [Context.rootSymbol?, hroot, Option.bind_some, hresolve, Option.bind_some, hsymbol]
      · rw [hconst, decide_eq_true_iff]
      · -- a plain variable is looked up under its own name
        by_contra hvar
        obtain ⟨other, hother⟩ := Option.ne_none_iff_exists'.1 hvar
        obtain ⟨id', hroot'⟩ := Expr.exists_root_of_asVar hother
        obtain ⟨-, rfl⟩ := Prod.mk.inj (Option.some.inj (hroot.symm.trans hroot'))
        have hfalse := hplain name hother
        rw [Point.isConst, hlookup, Option.any_some, ← hconst, htrue] at hfalse
        contradiction

/-- A source with a constant, and with assignments to a variable of the same name in a block and
to a field. -/
def shadowedConstant : Source :=
  .ofText 0 "shadowed" ("class P \x7b int x; \x7d; fn main() \x7b const int k = 1; P p; " ++
    "\x7b int k = 2; k = 3; print(k); \x7d p.x = k; \x7d").toList

theorem assignment_targets_judged_shadowedConstant :
    let p := shadowedConstant.program
    (∀ e ∈ p.check.2, e.fault.severity ≠ .error) ∧
      (p.points.filterMap Point.target?).length = 2 ∧ p.constants.length = 1 ∧
      ∀ q ∈ p.points, ∀ left, q.target? = some left →
        ∃ symbol, p.check.1.rootSymbol? left = some symbol ∧
          (symbol.isConst = true → left.asVar? = none) := by
  have hclean : ∀ e ∈ shadowedConstant.program.check.2, e.fault.severity ≠ .error := by
    decide +kernel
  refine ⟨hclean, by decide +kernel, by decide +kernel, fun q hq left htarget => ?_⟩
  obtain ⟨-, htargets⟩ := assignment_targets_judged (tokens shadowedConstant.text)
  obtain ⟨_, _, symbol, -, hsymbol, -, -, hplain⟩ :=
    htargets hclean q hq left htarget
  exact ⟨symbol, hsymbol, hplain⟩

/-- A source that assigns to a field of a constant. -/
def constantWithField : Source :=
  .ofText 0 "field" ("class P \x7b int x; \x7d;\nfn main() \x7b const P p; p.x = 1; \x7d").toList

/-- Nothing is reported where a field of a constant is assigned to. -/
theorem constant_assigned_constantWithField :
    let p := constantWithField.program
    p.check.2 = [] ∧
      ((p.points.filterMap Point.target?).filterMap p.check.1.rootSymbol?).map Symbol.isConst =
        [true] := by
  decide +kernel

end DeferLang
