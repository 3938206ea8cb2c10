import Mathlib.Algebra.BigOperators.Group.Finset.Basic
import Mathlib.Data.Fintype.BigOperators

/-!
# Families with one member changed

Per-thread data are a function from threads; a step of one thread changes it at one
argument. These lemmas follow counting and quantification through such a change.
-/

namespace Family

variable {ι β : Type*} [DecidableEq ι]

/-- Members with a property are counted anew only at the changed member. -/
theorem card_update [Fintype ι] (P : β → Prop) [DecidablePred P] (f : ι → β) (i : ι) (b : β) :
    (Finset.univ.filter fun j => P (Function.update f i b j)).card + (if P (f i) then 1 else 0) =
      (Finset.univ.filter fun j => P (f j)).card + (if P b then 1 else 0) := by
  have other : ∑ j ∈ Finset.univ.erase i, (if P (Function.update f i b j) then 1 else 0) =
      ∑ j ∈ Finset.univ.erase i, (if P (f j) then 1 else 0) := by
    apply Finset.sum_congr rfl
    intro j hj
    rw [Function.update_of_ne (Finset.ne_of_mem_erase hj)]
  have member : i ∈ Finset.univ := Finset.mem_univ i
  simp only [Finset.card_filter]
  rw [← Finset.add_sum_erase _ _ member, ← Finset.add_sum_erase _ _ member, other,
    Function.update_self]
  omega

/-- A property that the changed member keeps has a member as before. -/
theorem exists_update_iff (P : β → Prop) {f : ι → β} {i : ι} {b : β} (kept : P b ↔ P (f i)) :
    (∃ j, P (Function.update f i b j)) ↔ ∃ j, P (f j) := by
  apply exists_congr
  intro j
  by_cases h : j = i
  · subst h; rw [Function.update_self]; exact kept
  · rw [Function.update_of_ne h]

end Family
