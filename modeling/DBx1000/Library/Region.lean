import Mathlib.Data.List.Basic

/-!
# Regions of memory

A region is a range of addresses. Two regions are apart when one ends where the other begins, or
before; parts of regions that are apart are apart.
-/

@[ext]
structure Region where
  start : Nat
  len : Nat
  deriving DecidableEq

namespace Region

def Contains (r : Region) (address : Nat) : Prop :=
  r.start ≤ address ∧ address < r.start + r.len

instance (r : Region) (address : Nat) : Decidable (r.Contains address) :=
  inferInstanceAs (Decidable (_ ∧ _))

/-- `r` is a part of `outer`. -/
def Inside (r outer : Region) : Prop :=
  outer.start ≤ r.start ∧ r.start + r.len ≤ outer.start + outer.len

def Apart (r r' : Region) : Prop := r.start + r.len ≤ r'.start ∨ r'.start + r'.len ≤ r.start

instance (r r' : Region) : Decidable (r.Apart r') := inferInstanceAs (Decidable (_ ∨ _))

variable {r r' outer : Region}

theorem Inside.refl (r : Region) : r.Inside r := ⟨Nat.le_refl _, Nat.le_refl _⟩

theorem Inside.trans {outermost : Region} (h : r.Inside outer) (h' : outer.Inside outermost) :
    r.Inside outermost :=
  ⟨Nat.le_trans h'.1 h.1, Nat.le_trans h.2 h'.2⟩

theorem Inside.contains {address : Nat} (h : r.Inside outer) (has : r.Contains address) :
    outer.Contains address :=
  ⟨Nat.le_trans h.1 has.1, Nat.lt_of_lt_of_le has.2 h.2⟩

theorem Apart.symm (h : r.Apart r') : r'.Apart r := Or.symm h

/-- A part of a region is apart from whatever the region is apart from. -/
theorem Apart.inside (h : outer.Apart r') (part : r.Inside outer) : r.Apart r' := by
  rcases h with before | behind
  · exact .inl (Nat.le_trans part.2 before)
  · exact .inr (Nat.le_trans behind part.1)

/-- No address is in two regions that are apart. -/
theorem Apart.not_contains {address : Nat} (h : r.Apart r') (has : r.Contains address) :
    ¬ r'.Contains address := by
  intro has'
  rcases h with before | behind
  · exact absurd (Nat.le_trans before has'.1) (Nat.not_le_of_lt has.2)
  · exact absurd (Nat.le_trans behind has.1) (Nat.not_le_of_lt has'.2)

end Region
