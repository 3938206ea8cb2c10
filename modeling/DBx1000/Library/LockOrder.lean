import Mathlib.Logic.Relation
import Mathlib.Order.Extension.Linear

/-!
# Locks that are taken in one order

If every thread waits for a row that comes behind all rows that it holds, no threads wait for
each other in a circle. A relation without cycles between rows with the same key is part of a
total order that begins with the key.
-/

namespace LockOrder

open Relation

variable {ρ τ κ : Type*}

section Waits

variable (waits holds : τ → ρ → Prop)

/-- The first thread waits for a row that the second one holds. -/
def WaitsFor (t u : τ) : Prop := ∃ x, waits t x ∧ holds u x

variable {waits holds} {lt : ρ → ρ → Prop}

/-- Along a path of waiting threads the rows that they wait for increase. -/
theorem lt_of_transGen (trans : ∀ x y z, lt x y → lt y z → lt x z)
    (order : ∀ t x y, waits t x → holds t y → lt y x) {t u : τ}
    (path : TransGen (WaitsFor waits holds) t u) {y : ρ} (wait : waits u y) :
    ∃ x, waits t x ∧ lt x y := by
  induction path generalizing y with
  | single edge =>
    obtain ⟨x, waits, holds⟩ := edge
    exact ⟨x, waits, order _ _ _ wait holds⟩
  | tail _ edge ih =>
    obtain ⟨x, waits, holds⟩ := edge
    obtain ⟨w, first, lt⟩ := ih waits
    exact ⟨w, first, trans _ _ _ lt (order _ _ _ wait holds)⟩

/-- No threads wait for each other in a circle. -/
theorem no_cycle (irrefl : ∀ x, ¬ lt x x) (trans : ∀ x y z, lt x y → lt y z → lt x z)
    (one : ∀ t x y, waits t x → waits t y → x = y)
    (order : ∀ t x y, waits t x → holds t y → lt y x) (t : τ) :
    ¬ TransGen (WaitsFor waits holds) t t := by
  intro cycle
  obtain ⟨u, ⟨y, wait, -⟩, -⟩ := TransGen.head'_iff.mp cycle
  obtain ⟨x, wait', less⟩ := lt_of_transGen trans order cycle wait
  rw [one t x y wait' wait] at less
  exact irrefl y less

end Waits

/-- A total order on rows that has the order of the keys, and a relation without cycles where the
keys are the same. -/
theorem exists_order [LinearOrder κ] (key : ρ → κ) {before : ρ → ρ → Prop}
    (acyclic : ∀ x, ¬ TransGen before x x) :
    ∃ lt : ρ → ρ → Prop, IsStrictTotalOrder ρ lt ∧
      ∀ x y, key x < key y ∨ key x = key y ∧ before x y → lt x y := by
  have partial_ : IsPartialOrder ρ (ReflTransGen before) :=
    { refl := fun x => ReflTransGen.refl
      trans := fun x y z => ReflTransGen.trans
      antisymm := fun x y xy yx => by
        rcases reflTransGen_iff_eq_or_transGen.mp xy with same | path
        · exact same.symm
        · exact absurd (path.trans_left yx) (acyclic x) }
  obtain ⟨le, linear, sub⟩ := extend_partialOrder (ReflTransGen before)
  refine ⟨fun x y => key x < key y ∨ key x = key y ∧ le x y ∧ x ≠ y, ?_, fun x y => ?_⟩
  · refine { trichotomous := ?_, irrefl := ?_, trans := ?_ }
    · intro x y not_xy not_yx
      by_contra ne
      rcases lt_trichotomy (key x) (key y) with less | same | less
      · exact not_xy (.inl less)
      · rcases linear.total x y with le_xy | le_yx
        · exact not_xy (.inr ⟨same, le_xy, ne⟩)
        · exact not_yx (.inr ⟨same.symm, le_yx, Ne.symm ne⟩)
      · exact not_yx (.inl less)
    · rintro x (less | ⟨-, -, ne⟩)
      · exact lt_irrefl _ less
      · exact ne rfl
    · rintro x y z (xy | ⟨xy, le_xy, ne⟩) (yz | ⟨yz, le_yz, ne'⟩)
      · exact .inl (lt_trans xy yz)
      · exact .inl (yz ▸ xy)
      · exact .inl (xy ▸ yz)
      · refine .inr ⟨xy.trans yz, linear.trans _ _ _ le_xy le_yz, ?_⟩
        rintro rfl
        exact ne (linear.antisymm _ _ le_xy le_yz)
  · rintro (less | ⟨same, first⟩)
    · exact .inl less
    · refine .inr ⟨same, sub x y (ReflTransGen.single first), ?_⟩
      rintro rfl
      exact acyclic x (TransGen.single first)

end LockOrder
