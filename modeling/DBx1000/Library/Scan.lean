import Mathlib.Algebra.Order.Ring.Nat
import Mathlib.Data.List.Basic
import Mathlib.Order.OrderDual

/-!
# Scans of an array for an extreme entry

The loop that goes through an array and notes the key and the index of an entry whenever its
key is above what has been noted. The least entry is the greatest one in the dual order. An
index of `none` stands for the length of the array, with which such loops start.
-/

namespace Scan

variable {α κ : Type*} [LinearOrder κ] (ok : α → Prop) [DecidablePred ok] (key : α → κ)

/-- The entries from the index `i` on. -/
def scanFrom : List α → Nat → κ × Option Nat → κ × Option Nat
  | [], _, best => best
  | a :: as, i, best =>
    scanFrom as (i + 1) (if ok a ∧ best.1 < key a then (key a, some i) else best)

/-- The greatest key above `first` of the entries that are `ok`, and its index. -/
def scanMax (first : κ) (as : List α) : κ × Option Nat := scanFrom ok key as 0 (first, none)

/-- The least key below `first` of the entries that are `ok`, and its index. -/
def scanMin (first : κ) (as : List α) : κ × Option Nat :=
  scanFrom (κ := κᵒᵈ) ok (fun a => OrderDual.toDual (key a)) as 0 (OrderDual.toDual first, none)

/-- Either nothing is above what had been noted, or the result is the greatest entry. -/
theorem scanFrom_cases (as : List α) (i : Nat) (best : κ × Option Nat) :
    scanFrom ok key as i best = best ∧ (∀ a ∈ as, ok a → key a ≤ best.1) ∨
      ∃ n a, as[n]? = some a ∧ ok a ∧ best.1 < key a ∧
        scanFrom ok key as i best = (key a, some (i + n)) ∧ ∀ b ∈ as, ok b → key b ≤ key a := by
  induction as generalizing i best with
  | nil => exact .inl ⟨rfl, fun _ => nofun⟩
  | cons a as ih =>
    rw [scanFrom]
    split
    · next found =>
      -- the head is noted, and the tail may have something greater
      right
      rcases ih (i + 1) (key a, some i) with ⟨same, least⟩ | ⟨n, b, at_, good, more, result, least⟩
      · refine ⟨0, a, rfl, found.1, found.2, same, fun b hb good => ?_⟩
        rcases List.mem_cons.mp hb with rfl | hb
        · exact le_refl _
        · exact least b hb good
      · refine ⟨n + 1, b, at_, good, lt_trans found.2 more, ?_, fun c hc ok' => ?_⟩
        · rw [result, Nat.add_assoc, Nat.add_comm 1 n]
        · rcases List.mem_cons.mp hc with rfl | hc
          · exact le_of_lt more
          · exact least c hc ok'
    · next worse =>
      have head (good : ok a) : key a ≤ best.1 := not_lt.mp fun lt => worse ⟨good, lt⟩
      rcases ih (i + 1) best with ⟨same, least⟩ | ⟨n, b, at_, good, more, result, least⟩
      · refine .inl ⟨same, fun b hb good => ?_⟩
        rcases List.mem_cons.mp hb with rfl | hb
        · exact head good
        · exact least b hb good
      · refine .inr ⟨n + 1, b, at_, good, more, ?_, fun c hc ok' => ?_⟩
        · rw [result, Nat.add_assoc, Nat.add_comm 1 n]
        · rcases List.mem_cons.mp hc with rfl | hc
          · exact le_of_lt (lt_of_le_of_lt (head ok') more)
          · exact least c hc ok'

theorem scanMax_cases (as : List α) (first : κ) :
    scanMax ok key first as = (first, none) ∧ (∀ a ∈ as, ok a → key a ≤ first) ∨
      ∃ n a, as[n]? = some a ∧ ok a ∧ first < key a ∧ scanMax ok key first as = (key a, some n) ∧
        ∀ b ∈ as, ok b → key b ≤ key a := by
  have := scanFrom_cases ok key as 0 (first, none)
  simp only [Nat.zero_add] at this
  exact this

theorem scanMin_cases (as : List α) (first : κ) :
    scanMin ok key first as = (first, none) ∧ (∀ a ∈ as, ok a → first ≤ key a) ∨
      ∃ n a, as[n]? = some a ∧ ok a ∧ key a < first ∧ scanMin ok key first as = (key a, some n) ∧
        ∀ b ∈ as, ok b → key a ≤ key b := by
  have := scanFrom_cases (κ := κᵒᵈ) ok (fun a => OrderDual.toDual (key a)) as 0
    (OrderDual.toDual first, none)
  simp only [Nat.zero_add] at this
  exact this

end Scan
