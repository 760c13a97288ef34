import DeferLang.Ty.Table
import Mathlib.Logic.Relation

/-!
# Numbers stand for types

A table numbers one layer of a type at a time, over parts that it numbered before
(`TypeTable.Numbers`).  Whatever is numbered, the layers and the index of their numbers
stay inverse to each other and every layer refers to smaller numbers
(`TypeTable.Sound`), so that every number unfolds to a type, and different numbers to
different types.
-/

namespace DeferLang

open List

namespace TypeKind

variable {type type' : TypeId → Ty}

theorem over_congr {kind : TypeKind} (h : ∀ part ∈ kind.parts, type part = type' part) :
    kind.over type = kind.over type' := by
  cases kind with
  | int | bool | void | str | object | unknown => rfl
  | pointer target | reference target | array target size | sequence target =>
    simp only [TypeKind.over, h target mem_cons_self]
  | function params result =>
    have hparams : params.map type = params.map type' :=
      map_congr_left fun part hpart => h part (mem_append_left _ hpart)
    simp only [TypeKind.over, hparams, h result (mem_append_right _ mem_cons_self)]

theorem map_inj_of_mem {parts parts' : List TypeId}
    (h : ∀ part ∈ parts, ∀ part' ∈ parts', type part = type part' → part = part')
    (hmap : parts.map type = parts'.map type) : parts = parts' := by
  induction parts generalizing parts' with
  | nil => exact (map_eq_nil_iff.1 hmap.symm).symm
  | cons part parts ih =>
    cases parts' with
    | nil => contradiction
    | cons part' parts' =>
      obtain ⟨hfirst, hrest⟩ := List.cons.inj hmap
      rw [h part mem_cons_self part' mem_cons_self hfirst, ih ?_ hrest]
      exact fun q hq q' hq' => h q (mem_cons_of_mem _ hq) q' (mem_cons_of_mem _ hq')

/-- A layer can be told from the type that it makes of parts that can be told apart. -/
theorem over_inj {kind kind' : TypeKind}
    (h : ∀ part ∈ kind.parts, ∀ part' ∈ kind'.parts, type part = type part' → part = part')
    (hover : kind.over type = kind'.over type) : kind = kind' := by
  cases kind <;> cases kind' <;> try contradiction
  case function.function params result params' result' =>
    simp only [TypeKind.over, Ty.function.injEq] at hover
    have hresult := h result (mem_append_right _ mem_cons_self) result'
      (mem_append_right _ mem_cons_self) hover.2
    rw [hresult, map_inj_of_mem (fun part hpart part' hpart' => h part
      (mem_append_left _ hpart) part' (mem_append_left _ hpart')) hover.1]
  all_goals simp_all [TypeKind.over, parts]

end TypeKind

namespace TypeTable

/-- A layer is numbered, over numbers that the table gave out before. -/
inductive Numbers : TypeTable × List TypeId → TypeTable × List TypeId → Prop
  | intern {t : TypeTable} {ids : List TypeId} {kind : TypeKind}
      (h : ∀ part ∈ kind.parts, part ∈ ids) :
      Numbers (t, ids) ((t.intern kind).1, (t.intern kind).2 :: ids)

/-- The table of the types without parts, and their numbers. -/
def start : TypeTable × List TypeId :=
  (base, List.range 5)

/-- The layers and their numbers are inverse to each other, and every layer refers to smaller
numbers.  What was given out is in use. -/
structure Sound (t : TypeTable) (ids : List TypeId) : Prop where
  inverse : ∀ kind id, t.index.lookup kind = some id ↔ t.kinds[id]? = some kind
  parts_lt : ∀ id (kind : TypeKind), t.kinds[id]? = some kind → ∀ part ∈ kind.parts, part < id
  used : ∀ id ∈ ids, id < t.kinds.length

variable {t : TypeTable} {ids : List TypeId} {kind : TypeKind} {id : TypeId}

section Steps

theorem kind_eq (h : id < t.kinds.length) : t.kinds[id]? = some (t.kind id) := by
  rw [kind, getD_eq_getElem?_getD, List.getElem?_eq_getElem h]
  rfl

/-- A layer that is numbered has its number before, or gets the next one. -/
theorem intern_cases (t : TypeTable) (kind : TypeKind) :
    (t.intern kind).1 = t ∧ t.index.lookup kind = some (t.intern kind).2 ∨
      t.index.lookup kind = none ∧ t.intern kind =
        (⟨t.kinds ++ [kind], (kind, t.kinds.length) :: t.index⟩, t.kinds.length) := by
  unfold intern
  cases h : t.index.lookup kind with
  | some id => exact .inl ⟨rfl, rfl⟩
  | none => exact .inr ⟨rfl, rfl⟩

theorem prefix_intern (t : TypeTable) (kind : TypeKind) : t.kinds <+: (t.intern kind).1.kinds := by
  rcases intern_cases t kind with ⟨hsame, -⟩ | ⟨-, hnew⟩
  · simp [hsame]
  · rw [hnew]
    exact prefix_append _ _

theorem Sound.kind_intern (h : Sound t ids) (kind : TypeKind) :
    (t.intern kind).1.kinds[(t.intern kind).2]? = some kind := by
  rcases intern_cases t kind with ⟨hsame, hlookup⟩ | ⟨-, hnew⟩
  · rw [hsame]
    exact (h.inverse _ _).1 hlookup
  · rw [hnew]
    exact List.getElem?_concat_length

theorem Sound.intern (h : Sound t ids) (hparts : ∀ part ∈ kind.parts, part ∈ ids) :
    Sound (t.intern kind).1 ((t.intern kind).2 :: ids) := by
  have hlength := (prefix_intern t kind).length_le
  have hused : ∀ id ∈ (t.intern kind).2 :: ids, id < (t.intern kind).1.kinds.length := by
    refine forall_mem_cons.2 ⟨?_, fun id hid => Nat.lt_of_lt_of_le (h.used id hid) hlength⟩
    exact (List.getElem?_eq_some_iff.1 (h.kind_intern kind)).1
  rcases intern_cases t kind with ⟨hsame, -⟩ | ⟨hfresh, hnew⟩
  · rw [hsame] at hused ⊢
    exact ⟨h.inverse, h.parts_lt, hused⟩
  rw [hnew] at hused ⊢
  -- the new layer stands behind all others, at the only number without a layer
  have hstored (id : TypeId) (kind' : TypeKind) : (t.kinds ++ [kind])[id]? = some kind' ↔
      t.kinds[id]? = some kind' ∨ id = t.kinds.length ∧ kind = kind' := by
    rcases Nat.lt_trichotomy id t.kinds.length with hid | rfl | hid
    · rw [List.getElem?_append_left hid]
      exact ⟨.inl, fun h => h.resolve_right fun h => Nat.ne_of_lt hid h.1⟩
    · simp
    · rw [List.getElem?_eq_none (by simp; omega), List.getElem?_eq_none (by omega)]
      simp [Nat.ne_of_gt hid]
  refine ⟨fun kind' id => ?_, fun id kind' hkind' => ?_, hused⟩
  · rw [hstored, lookup_cons]
    by_cases hkind : kind' = kind
    · subst hkind
      simp [← h.inverse, hfresh, eq_comm]
    · have hne : (kind' == kind) = false := by simpa using hkind
      simp [hne, h.inverse, Ne.symm hkind]
  · rcases (hstored id kind').1 hkind' with hold | ⟨rfl, rfl⟩
    · exact h.parts_lt id kind' hold
    · exact fun part hpart => h.used part (hparts part hpart)

theorem Sound.base : Sound base (List.range 5) := by
  have hempty : Sound ⟨[], []⟩ [] := ⟨by simp, by simp, by simp⟩
  have hnext {t : TypeTable} {ids : List TypeId} (h : Sound t ids) (kind : TypeKind)
      (hkind : kind.parts = []) : Sound (t.intern kind).1 ((t.intern kind).2 :: ids) :=
    h.intern (by simp [hkind])
  have hall := hnext (hnext (hnext (hnext (hnext hempty .int rfl) .bool rfl) .void rfl) .str rfl)
    .unknown rfl
  exact ⟨hall.inverse, hall.parts_lt, by decide⟩

theorem Sound.of_numbers {s s' : TypeTable × List TypeId} (h : Relation.ReflTransGen Numbers s s')
    (hs : Sound s.1 s.2) : Sound s'.1 s'.2 ∧ s.1.kinds <+: s'.1.kinds := by
  induction h with
  | refl => exact ⟨hs, prefix_refl _⟩
  | tail _ hstep ih =>
    cases hstep with
    | intern hparts => exact ⟨ih.1.intern hparts, ih.2.trans (prefix_intern _ _)⟩

end Steps

section Unfolding

theorem Sound.part_lt (h : Sound t ids) {part : TypeId} (hpart : part ∈ (t.kind id).parts) :
    part < id := by
  by_cases hid : id < t.kinds.length
  · exact h.parts_lt id _ (kind_eq hid) part hpart
  · rw [kind, getD_eq_getElem?_getD, List.getElem?_eq_none (Nat.le_of_not_lt hid)] at hpart
    exact absurd hpart not_mem_nil

/-- More layers than the number of a type change nothing. -/
theorem Sound.expandWithin_eq (h : Sound t ids) {depth : Nat} (hdepth : id < depth) :
    t.expandWithin depth id = t.expand id := by
  induction id using Nat.strongRecOn generalizing depth with
  | ind id ih =>
    obtain ⟨depth, rfl⟩ := Nat.exists_eq_add_one.2 (Nat.zero_lt_of_lt hdepth)
    refine TypeKind.over_congr fun part hpart => ?_
    have hlt := h.part_lt hpart
    exact (ih part hlt (Nat.lt_of_lt_of_le hlt (Nat.le_of_lt_succ hdepth))).trans
      (ih part hlt hlt).symm

theorem Sound.expand_eq (h : Sound t ids) (id : TypeId) : t.expand id = (t.kind id).over t.expand :=
  TypeKind.over_congr fun _ hpart => h.expandWithin_eq (h.part_lt hpart)

theorem Sound.expand_inj (h : Sound t ids) {id' : TypeId} (hid : id < t.kinds.length)
    (hid' : id' < t.kinds.length) (heq : t.expand id = t.expand id') : id = id' := by
  -- parts have smaller numbers, so equal layers are left to compare
  induction id using Nat.strongRecOn generalizing id' with
  | ind id ih =>
    rw [h.expand_eq id, h.expand_eq id'] at heq
    have hkind : t.kind id = t.kind id' := by
      refine TypeKind.over_inj (fun part hpart part' hpart' => ?_) heq
      have hlt := h.part_lt hpart
      exact ih part hlt (Nat.lt_trans hlt hid) (Nat.lt_trans (h.part_lt hpart') hid')
    have hlookup := (h.inverse _ _).2 (kind_eq hid)
    rw [hkind, (h.inverse _ _).2 (kind_eq hid')] at hlookup
    exact (Option.some.inj hlookup).symm

end Unfolding

/-- Of every table that numbers types over numbers it gave out, the layers and the index stay
inverse to each other, and a number denotes in every later table the layer that it was given out
for.  A layer only refers to smaller numbers, so that unfolding a number ends, whatever the number:
it gives the type that its layer makes of the types of its parts, and more layers do not change what
is shown.  Two numbers that were given out are equal if and only if they unfold to equal types. -/
theorem numbers_stand_for_types (s : TypeTable × List TypeId)
    (h : Relation.ReflTransGen Numbers start s) :
    (∀ kind id, s.1.index.lookup kind = some id ↔ s.1.kinds[id]? = some kind) ∧
    (∀ (kind : TypeKind) later, (∀ part ∈ kind.parts, part ∈ s.2) → Relation.ReflTransGen Numbers
      ((s.1.intern kind).1, (s.1.intern kind).2 :: s.2) later →
        later.1.kind (s.1.intern kind).2 = kind) ∧
    (∀ id (kind : TypeKind), s.1.kinds[id]? = some kind → ∀ part ∈ kind.parts, part < id) ∧
    (∀ id, s.1.expand id = (s.1.kind id).over s.1.expand ∧
      ∀ depth, id < depth → (s.1.expandWithin depth id).display = s.1.display id) ∧
    ∀ id ∈ s.2, ∀ id' ∈ s.2, id = id' ↔ s.1.expand id = s.1.expand id' := by
  have hs : Sound s.1 s.2 := (Sound.of_numbers h .base).1
  refine ⟨hs.inverse, fun kind later hparts hlater => ?_, hs.parts_lt, fun id => ?_, ?_⟩
  · obtain ⟨more, hkept⟩ := (Sound.of_numbers hlater (hs.intern hparts)).2
    have hkind := hs.kind_intern kind
    have hid := (List.getElem?_eq_some_iff.1 hkind).1
    rw [TypeTable.kind, List.getD_eq_getElem?_getD, ← hkept, List.getElem?_append_left hid, hkind]
    rfl
  · refine ⟨hs.expand_eq id, fun depth hdepth => ?_⟩
    rw [hs.expandWithin_eq hdepth, display]
  · exact fun id hid id' hid' => ⟨congrArg _, hs.expand_inj (hs.used id hid) (hs.used id' hid')⟩

/-- A function over a pointer and a reference to it. -/
theorem numbers_stand_for_types_function :
    let pointers := base.intern (.pointer 0)
    let references := pointers.1.intern (.reference pointers.2)
    let functions := references.1.intern (.function [pointers.2, references.2] 0)
    let ids := functions.2 :: references.2 :: pointers.2 :: List.range 5
    Relation.ReflTransGen Numbers start (functions.1, ids) ∧ ids = [7, 6, 5, 0, 1, 2, 3, 4] ∧
      functions.1.expand 7 = .function [.pointer .int, .reference (.pointer .int)] .int ∧
      (∀ kind id, functions.1.index.lookup kind = some id ↔ functions.1.kinds[id]? = some kind) ∧
      ((7 : TypeId) = 6 ↔ functions.1.expand 7 = functions.1.expand 6) := by
  intro pointers references functions ids
  have hsteps : Relation.ReflTransGen Numbers start (functions.1, ids) :=
    ((Relation.ReflTransGen.single (.intern (by decide))).tail (.intern (by decide))).tail
      (.intern (by decide))
  obtain ⟨hinverse, -, -, -, hinjective⟩ := numbers_stand_for_types _ hsteps
  exact ⟨hsteps, rfl, rfl, hinverse, hinjective 7 (by decide) 6 (by decide)⟩

end TypeTable

end DeferLang
