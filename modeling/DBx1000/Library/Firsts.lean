import DBx1000.Library.Shift

/-!
# First occurrences

The cells of an array with whose keys no earlier cell has come, in the order of the array.
-/

namespace Firsts

open Shift

variable {α κ : Type*} [DecidableEq κ] (key : α → κ) (ws : Nat → α)

/-- No cell before this one has its key. -/
def IsFirst (p : Nat) : Prop := ∀ q < p, key (ws q) ≠ key (ws p)

instance (p : Nat) : Decidable (IsFirst key ws p) :=
  inferInstanceAs (Decidable (∀ q < p, key (ws q) ≠ key (ws p)))

/-- The first occurrences among the first `n` cells. -/
def firsts (n : Nat) : List α := ((List.range n).filter fun p => IsFirst key ws p).map ws

@[simp] theorem firsts_zero : firsts key ws 0 = [] := rfl

theorem firsts_succ (n : Nat) :
    firsts key ws (n + 1) = firsts key ws n ++ if IsFirst key ws n then [ws n] else [] := by
  unfold firsts
  rw [List.range_succ, List.filter_append, List.map_append]
  congr 1
  by_cases first : IsFirst key ws n <;> simp [first]

theorem length_firsts_le (n : Nat) : (firsts key ws n).length ≤ n := by
  unfold firsts
  rw [List.length_map]
  exact Nat.le_trans (List.length_filter_le _ _) (Nat.le_of_eq List.length_range)

theorem length_firsts_mono {m n : Nat} (le : m ≤ n) :
    (firsts key ws m).length ≤ (firsts key ws n).length := by
  induction le with
  | refl => exact Nat.le_refl _
  | step _ ih =>
    rw [firsts_succ, List.length_append]
    exact Nat.le_trans ih (Nat.le_add_right _ _)

/-- The first occurrences have all keys. -/
theorem exists_firsts {n : Nat} {k : κ} :
    (∃ a ∈ firsts key ws n, key a = k) ↔ ∃ q < n, key (ws q) = k := by
  induction n with
  | zero => simp
  | succ n ih =>
    rw [firsts_succ]
    constructor
    · rintro ⟨a, mem, rfl⟩
      rcases List.mem_append.mp mem with mem | mem
      · obtain ⟨q, lt, same⟩ := ih.mp ⟨a, mem, rfl⟩
        exact ⟨q, Nat.lt_succ_of_lt lt, same⟩
      · split at mem
        · obtain rfl := List.mem_singleton.mp mem
          exact ⟨n, Nat.lt_succ_self n, rfl⟩
        · cases mem
    · rintro ⟨q, lt, rfl⟩
      rcases Nat.lt_succ_iff_lt_or_eq.mp lt with lt | rfl
      · obtain ⟨a, mem, same⟩ := ih.mpr ⟨q, lt, rfl⟩
        exact ⟨a, List.mem_append_left _ mem, same⟩
      · by_cases first : IsFirst key ws q
        · exact ⟨ws q, by simp [first], rfl⟩
        · unfold IsFirst at first
          push Not at first
          obtain ⟨q', lt', same⟩ := first
          obtain ⟨a, mem, same'⟩ := ih.mpr ⟨q', lt', same⟩
          exact ⟨a, List.mem_append_left _ mem, same'⟩

/-- A cell is a first occurrence if the first occurrences before it do not have its key. -/
theorem isFirst_iff {n : Nat} : IsFirst key ws n ↔ ∀ a ∈ firsts key ws n, key a ≠ key (ws n) := by
  constructor
  · intro first a mem same
    obtain ⟨q, lt, same'⟩ := (exists_firsts key ws).mp ⟨a, mem, same⟩
    exact first q lt same'
  · intro new q lt same
    obtain ⟨a, mem, same'⟩ := (exists_firsts key ws).mpr ⟨q, lt, same⟩
    exact new a mem same'

theorem nodup_firsts (n : Nat) : ((firsts key ws n).map key).Nodup := by
  induction n with
  | zero => exact List.nodup_nil
  | succ n ih =>
    rw [firsts_succ]
    split
    · next first =>
      rw [List.map_append, List.map_singleton]
      refine List.nodup_append.mpr ⟨ih, by simp, fun k mem k' mem' same => ?_⟩
      obtain ⟨a, inside, rfl⟩ := List.mem_map.mp mem
      obtain rfl := List.mem_singleton.mp mem'
      exact (isFirst_iff key ws).mp first a inside same
    · rwa [List.append_nil]

end Firsts
