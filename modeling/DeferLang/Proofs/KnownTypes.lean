import DeferLang.Proofs.ExitCleanup
import DeferLang.Proofs.TypedProgram

/-!
# Known types

Where checking cannot tell a type it records `unknown`, and it reports why, with one
exception: the type of a field that is written `auto`.  Without such fields, a check
that reports no error knows the type of every expression, symbol and field.
-/

namespace DeferLang

/-- Whether a type is neither unknown nor a pointer or reference to what is unknown. -/
def Ty.isKnown : Ty → Bool
  | .unknown => false
  | .pointer t => t.isKnown
  | .reference t => t.isKnown
  | _ => true

theorem Ty.closed_isKnown : Ty.Closed fun t => t.isKnown = true where
  int := rfl
  bool := rfl
  void := rfl
  str := rfl
  sequence := rfl
  object _ := rfl
  pointer _ h := h
  reference _ h := h
  deref t h := by
    cases t with
    | _ => exact h

/-- All types in the tables are known: those of expressions, of symbols and of fields. -/
structure Context.Known (c : Context) : Prop where
  exprTypes : ∀ entry ∈ c.exprTypes, entry.2.isKnown = true
  symbols : ∀ symbol ∈ c.symbols.symbols, symbol.type.isKnown = true
  fields : ∀ i ∈ c.classes, ∀ field ∈ i.fields, field.2.isKnown = true

/-- A check without errors knows all types, unless a field is written `auto`. -/
theorem known_of_no_errors (p : Program)
    (hfields : ∀ d ∈ p.classes, ∀ f ∈ d.fields, f.type.base ≠ .auto)
    (hclean : ∀ e ∈ p.check.2, e.fault.severity ≠ .error) : p.check.1.Known := by
  obtain ⟨hsafe, -⟩ := check_spec hclean Ty.closed_isKnown fun d hd f hf hauto =>
    absurd hauto (hfields d hd f hf)
  refine ⟨hsafe.exprTypes, fun symbol hsymbol => ?_, hsafe.fields⟩
  exact hsafe.symbols symbol.type (List.mem_map_of_mem hsymbol)

/-- A source with a variable whose type is that of a field, and a reference to it. -/
def inferredLocal : Source :=
  .ofText 0 "inferred" ("class P \x7b int x; bool* b; \x7d; fn main() \x7b P p; " ++
    "auto y = p.x; int& r = y; print(r); \x7d").toList

theorem known_of_no_errors_inferredLocal :
    (∀ d ∈ inferredLocal.program.classes, ∀ f ∈ d.fields, f.type.base ≠ .auto) ∧
      (∀ e ∈ inferredLocal.program.check.2, e.fault.severity ≠ .error) ∧
      inferredLocal.program.check.1.Known := by
  have hfields : ∀ d ∈ inferredLocal.program.classes, ∀ f ∈ d.fields, f.type.base ≠ .auto := by
    decide +kernel
  have hclean : ∀ e ∈ inferredLocal.program.check.2, e.fault.severity ≠ .error := by
    decide +kernel
  exact ⟨hfields, hclean, known_of_no_errors inferredLocal.program hfields hclean⟩

/-- A source with a field whose type is left open. -/
def autoField : Source :=
  .ofText 0 "field" "class P \x7b auto x; \x7d; fn main() \x7b \x7d".toList

/-- Nothing is reported about a field that is written `auto`, and its type is unknown. -/
theorem not_known_autoField :
    autoField.program.check.2 = [] ∧ ¬autoField.program.check.1.Known := by
  refine ⟨by decide +kernel, fun hknown => ?_⟩
  have hfield : ∃ i ∈ autoField.program.check.1.classes, ∃ field ∈ i.fields,
      field.2.isKnown = false := by
    decide +kernel
  obtain ⟨i, hi, field, hfield, hunknown⟩ := hfield
  exact Bool.false_ne_true (hunknown.symm.trans (hknown.fields i hi field hfield))

end DeferLang
