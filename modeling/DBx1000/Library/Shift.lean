import Mathlib.Data.List.Basic
import Mathlib.Logic.Function.Basic

/-!
# Arrays with a count, changed by shifting

A program keeps a list in the first cells of an array. It inserts by moving cells up from
the end until it finds the place, and removes by moving the cells behind the place down.
`cells` is the list that the array holds; each loop is described by what it does to it.
-/

namespace Shift

variable {α : Type*} {ws ws' : Nat → α} {n k : Nat}

/-- The first `n` cells. -/
def cells (ws : Nat → α) (n : Nat) : List α := (List.range n).map ws

@[simp] theorem length_cells : (cells ws n).length = n := by
  simp [cells]

theorem cells_succ : cells ws (n + 1) = cells ws n ++ [ws n] := by
  simp [cells, List.range_succ]

theorem getElem?_cells (j : Nat) : (cells ws n)[j]? = if j < n then some (ws j) else none := by
  unfold cells
  rw [List.getElem?_map]
  split
  · next lt => rw [List.getElem?_range lt]; rfl
  · next ge => rw [List.getElem?_eq_none (by simpa using ge)]; rfl

theorem cells_map {β : Type*} (f : α → β) : (cells ws n).map f = cells (fun j => f (ws j)) n := by
  unfold cells
  rw [List.map_map]
  rfl

/-- Only the first cells matter. -/
theorem cells_congr (same : ∀ j < n, ws j = ws' j) : cells ws n = cells ws' n := by
  apply List.map_congr_left
  intro j hj
  exact same j (List.mem_range.mp hj)

/-! ### Insertion from the end -/

/-- `for (i = n; i > 0; i--) if (stop(ws[i-1])) { ws[i] = a; break; } else ws[i] = ws[i-1];`
and `if (i == 0) ws[i] = a;`. -/
def insertFromEnd (stop : α → Bool) (a : α) : Nat → (Nat → α) → (Nat → α)
  | 0, ws => Function.update ws 0 a
  | i + 1, ws =>
    if stop (ws i) then Function.update ws (i + 1) a
    else insertFromEnd stop a i (Function.update ws (i + 1) (ws i))

theorem insertFromEnd_above (stop : α → Bool) (a : α) (ws : Nat → α) {j : Nat} (lt : n < j) :
    insertFromEnd stop a n ws j = ws j := by
  induction n generalizing ws with
  | zero => exact Function.update_of_ne (Nat.ne_of_gt lt) ..
  | succ i ih =>
    have ne : j ≠ i + 1 := Nat.ne_of_gt lt
    unfold insertFromEnd
    split
    · exact Function.update_of_ne ne ..
    · rw [ih _ (Nat.lt_of_succ_lt lt), Function.update_of_ne ne]

/-- The new cell is behind the last one at which the loop stops. -/
theorem insertFromEnd_spec (stop : α → Bool) (a : α) (n : Nat) (ws : Nat → α) :
    ∃ front back, cells ws n = front ++ back ∧
      cells (insertFromEnd stop a n ws) (n + 1) = front ++ a :: back ∧
      (∀ b ∈ back, stop b = false) ∧ ∀ b ∈ front.getLast?, stop b = true := by
  induction n generalizing ws with
  | zero =>
    refine ⟨[], [], rfl, ?_, by simp, by simp⟩
    simp [cells, insertFromEnd]
  | succ i ih =>
    unfold insertFromEnd
    split
    · next stops =>
      refine ⟨cells ws (i + 1), [], by simp, ?_, by simp, ?_⟩
      · rw [cells_succ, Function.update_self]
        congr 1
        apply cells_congr
        intro j lt
        exact Function.update_of_ne (Nat.ne_of_lt lt) ..
      · intro b last
        rw [cells_succ, List.getLast?_append_of_ne_nil _ (List.cons_ne_nil _ _)] at last
        cases last
        exact stops
    · next goes =>
      -- the last cell moves up, and the loop goes on below it
      obtain ⟨front, back, split, made, skipped, stops⟩ := ih (Function.update ws (i + 1) (ws i))
      have below : cells (Function.update ws (i + 1) (ws i)) i = cells ws i := by
        apply cells_congr
        intro j lt
        exact Function.update_of_ne (Nat.ne_of_lt (Nat.lt_succ_of_lt lt)) ..
      rw [below] at split
      refine ⟨front, back ++ [ws i], ?_, ?_, ?_, stops⟩
      · rw [cells_succ, split, List.append_assoc]
      · rw [cells_succ, made, insertFromEnd_above _ _ _ (Nat.lt_succ_self i), Function.update_self]
        simp
      · intro b hb
        rcases List.mem_append.mp hb with hb | hb
        · exact skipped b hb
        · rw [List.mem_singleton] at hb
          rw [hb]
          simpa using goes

/-! ### Closing the gap -/

/-- The cells from `k` on moved down by one. -/
theorem cells_close (ws : Nat → α) (lt : k < n) :
    cells (fun j => if k ≤ j ∧ j < n - 1 then ws (j + 1) else ws j) (n - 1) =
      (cells ws n).eraseIdx k := by
  apply List.ext_getElem?
  intro j
  rw [List.getElem?_eraseIdx, getElem?_cells, getElem?_cells, getElem?_cells]
  grind

/-- `for (i = i; rounds left; i++) { assert(ok(ws[i], ws[i+1])); ws[i] = ws[i+1]; }`. -/
def shiftDown (ok : α → α → Bool) : Nat → Nat → (Nat → α) → Option (Nat → α)
  | 0, _, ws => some ws
  | n + 1, i, ws =>
    if ok (ws i) (ws (i + 1)) then shiftDown ok n (i + 1) (Function.update ws i (ws (i + 1)))
    else none

theorem shiftDown_eq (ok : α → α → Bool) (ws : Nat → α) {i : Nat}
    (holds : ∀ j, i ≤ j → j < i + n → ok (ws j) (ws (j + 1)) = true) :
    shiftDown ok n i ws = some fun j => if i ≤ j ∧ j < i + n then ws (j + 1) else ws j := by
  induction n generalizing i ws with
  | zero =>
    unfold shiftDown
    congr 1
    funext j
    rw [if_neg (by omega)]
  | succ n ih =>
    rw [shiftDown, if_pos (holds i (Nat.le_refl i) (by omega)), ih]
    · congr 1
      funext j
      grind
    · intro j le lt
      -- the cells from `i + 1` on are as they were
      rw [Function.update_of_ne (by omega), Function.update_of_ne (by omega)]
      exact holds j (by omega) (by omega)

/-- `for (i = i; i < n; i++) { if (mine(ws[i])) find = true; if (find && i < n - 1) ws[i] = ws[i+1]; }`,
with the number of rounds that are left. -/
def removeLoop (mine : α → Bool) (n : Nat) : Nat → Nat → Bool → (Nat → α) → (Nat → α) × Bool
  | 0, _, find, ws => (ws, find)
  | rounds + 1, i, find, ws =>
    let find := find || mine (ws i)
    let ws := if find && i < n - 1 then Function.update ws i (ws (i + 1)) else ws
    removeLoop mine n rounds (i + 1) find ws

theorem removeLoop_found {mine : α → Bool} {rounds i : Nat} (all : i + rounds = n) :
    removeLoop mine n rounds i true ws =
      (fun j => if i ≤ j ∧ j < n - 1 then ws (j + 1) else ws j, true) := by
  induction rounds generalizing i ws with
  | zero =>
    unfold removeLoop
    congr 1
    funext j
    rw [if_neg (by omega)]
  | succ rounds ih =>
    rw [removeLoop]
    rw [Bool.true_or, ih (by omega)]
    congr 1
    funext j
    grind

/-- The loop closes the gap from the first cell that is looked for. -/
theorem removeLoop_eq (mine : α → Bool) (ws : Nat → α) {rounds i : Nat} (all : i + rounds = n) (le : i ≤ k)
    (lt : k < n) (first : ∀ j, i ≤ j → j < k → mine (ws j) = false) (found : mine (ws k) = true) :
    removeLoop mine n rounds i false ws =
      (fun j => if k ≤ j ∧ j < n - 1 then ws (j + 1) else ws j, true) := by
  induction rounds generalizing i with
  | zero => omega
  | succ rounds ih =>
    rw [removeLoop]
    by_cases here : i = k
    · subst here
      rw [found, Bool.or_true, removeLoop_found (by omega)]
      congr 1
      funext j
      grind
    · rw [first i (Nat.le_refl i) (by omega)]
      simp only [Bool.or_false, Bool.false_and, Bool.false_eq_true, if_false]
      exact ih (by omega) (by omega) fun j hj => first j (by omega)

end Shift
