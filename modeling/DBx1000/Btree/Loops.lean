import DBx1000.Btree.Index
import DBx1000.Library.Shift

/-!
# The loops over the arrays of a node

What each loop of the index does to the arrays, as one equation. The first cells of an array
are read as a list, as `Shift.cells` has them.

## Main result

`makeRoom_eq` and `makeRoom_zero`: the loop that makes room in an inner node moves the cells
up from every index but zero; from zero on it runs behind the start of the array.
-/

namespace DBx1000.Btree

open Shift

variable {order : Nat} {n : BtNode}

/-! ### Loads and stores -/

theorem loadKey_of_lt {i : Nat} (lt : i < order - 1) : n.loadKey order i = some (n.keys i) :=
  if_pos lt

theorem loadPointer_of_lt {i : Nat} (lt : i < order) :
    n.loadPointer order i = some (n.pointers i) :=
  if_pos lt

theorem storeKey_of_lt {i : Nat} (key : Key) (lt : i < order - 1) :
    n.storeKey order i key = some { n with keys := Function.update n.keys i key } :=
  if_pos lt

theorem storePointer_of_lt {i : Nat} (p : Ptr) (lt : i < order) :
    n.storePointer order i p = some { n with pointers := Function.update n.pointers i p } :=
  if_pos lt

theorem loadTemp_of_lt {α : Type} {length i : Nat} {temp : Nat → α} (lt : i < length) :
    loadTemp length temp i = some (temp i) :=
  if_pos lt

theorem storeTemp_of_lt {α : Type} {length i : Nat} {temp : Nat → α} (a : α) (lt : i < length) :
    storeTemp length temp i a = some (Function.update temp i a) :=
  if_pos lt

/-! ### Arrays as lists -/

theorem cells_eq_iff {ws : Nat → Nat} {count : Nat} {l : List Nat} :
    cells ws count = l ↔ l.length = count ∧ ∀ j < count, l[j]? = some (ws j) := by
  constructor
  · rintro rfl
    exact ⟨length_cells, fun j lt => by rw [getElem?_cells, if_pos lt]⟩
  · rintro ⟨length, cell⟩
    apply List.ext_getElem?
    intro j
    rw [getElem?_cells]
    split
    · next lt => exact (cell j lt).symm
    · next ge => rw [List.getElem?_eq_none (by omega)]

/-- A cell is stored in the room that was made for it. -/
theorem cells_insert (ws : Nat → Nat) {i count : Nat} (le : i ≤ count) (a : Nat) :
    cells (Function.update (fun j => if i < j ∧ j ≤ count then ws (j - 1) else ws j) i a)
      (count + 1) = (cells ws count).insertIdx i a := by
  apply List.ext_getElem?
  intro j
  rw [getElem?_cells, List.getElem?_insertIdx, getElem?_cells, getElem?_cells, length_cells]
  simp only [Function.update_apply]
  grind

/-! ### Searching a node -/

/-- The keys that a loop from index `i` on reads. -/
def keysFrom (n : BtNode) (i rounds : Nat) : List Key :=
  (List.range rounds).map fun j => n.keys (i + j)

theorem keysFrom_succ {i rounds : Nat} :
    keysFrom n i (rounds + 1) = n.keys i :: keysFrom n (i + 1) rounds := by
  unfold keysFrom
  rw [List.range_succ_eq_map, List.map_cons, List.map_map, Nat.add_zero]
  congr 1
  apply List.map_congr_left
  intro j _
  simp only [Function.comp_apply, Nat.succ_eq_add_one]
  congr 1
  omega

theorem keysFrom_zero {rounds : Nat} : keysFrom n 0 rounds = cells n.keys rounds := by
  unfold keysFrom
  simp only [Nat.zero_add]
  rfl

/-- The loop ends at the first key that stops it. -/
theorem scan_eq (stop : Key → Bool) {rounds i : Nat} (bound : i + rounds ≤ order - 1) :
    n.scan order stop rounds i =
      some (i + (keysFrom n i rounds).findIdx stop) := by
  induction rounds generalizing i with
  | zero => rfl
  | succ rounds ih =>
    rw [BtNode.scan, loadKey_of_lt (by omega), keysFrom_succ, List.findIdx_cons]
    cases stops : stop (n.keys i) with
    | true => simp [stops]
    | false =>
      simp only [stops, Option.bind_eq_bind, Option.bind_some, Bool.false_eq_true, if_false, cond_false]
      rw [ih (by omega)]
      congr 1
      omega

theorem scan_zero_eq (stop : Key → Bool) {rounds : Nat} (bound : rounds ≤ order - 1) :
    n.scan order stop rounds 0 = some ((cells n.keys rounds).findIdx stop) := by
  rw [scan_eq stop (by omega), Nat.zero_add, keysFrom_zero]

theorem leafHasKey_eq (key : Key) (bound : n.numKeys ≤ order - 1) :
    n.leafHasKey order key =
      some (if key ∈ cells n.keys n.numKeys then some ((cells n.keys n.numKeys).idxOf key)
        else none) := by
  unfold BtNode.leafHasKey
  rw [scan_zero_eq _ bound]
  have same : (cells n.keys n.numKeys).findIdx (fun k => decide (k = key)) =
      (cells n.keys n.numKeys).idxOf key := by
    unfold List.idxOf
    congr 1
  simp only [Option.bind_eq_bind, Option.bind_some, same]
  by_cases mem : key ∈ cells n.keys n.numKeys
  · have lt := List.idxOf_lt_length_of_mem mem
    rw [length_cells] at lt
    rw [if_pos lt, if_pos mem]
  · have eq := List.idxOf_eq_length mem
    rw [length_cells] at eq
    rw [if_neg (by omega), if_neg mem]

/-! ### Moving cells up -/

/-- The cells from the insertion point on moved up by one. -/
theorem shiftUp_eq {point count : Nat} (bound : count < order - 1) :
    shiftUp order point count n = some { n with
      keys := fun j => if point < j ∧ j ≤ count then n.keys (j - 1) else n.keys j
      pointers := fun j => if point < j ∧ j ≤ count then n.pointers (j - 1) else n.pointers j } := by
  induction count generalizing n with
  | zero =>
    have none (j : Nat) : ¬ (point < j ∧ j ≤ 0) := by omega
    simp only [shiftUp, none, if_false]
  | succ i ih =>
    unfold shiftUp
    split
    · next lt =>
      rw [loadKey_of_lt (by omega)]
      simp only [Option.bind_eq_bind, Option.bind_some]
      rw [storeKey_of_lt _ (by omega)]
      simp only [Option.bind_some]
      rw [loadPointer_of_lt (by omega)]
      simp only [Option.bind_some]
      rw [storePointer_of_lt _ (by omega)]
      simp only [Option.bind_some]
      rw [ih (by omega)]
      congr 2
      all_goals
        funext j
        simp only [Function.update_apply]
        grind
    · next ge =>
      have none (j : Nat) : ¬ (point < j ∧ j ≤ i + 1) := by omega
      simp only [none, if_false]

theorem pred32_succ {i : Nat} (lt : i + 1 < 2 ^ 32) : pred32 (i + 1) = i := by
  unfold pred32
  omega

/-- From every index but zero, the loop moves the keys and the pointers behind them up. -/
theorem makeRoom_eq (few : order ≤ 2 ^ 32) {idx rounds i : Nat} (pos : 0 < idx)
    (le : idx ≤ i + 1) (bound : i + 1 < order - 1) (enough : i < rounds) :
    makeRoom order idx (rounds + 1) i n = some { n with
      keys := fun j => if idx < j ∧ j ≤ i + 1 then n.keys (j - 1) else n.keys j
      pointers := fun j =>
        if idx + 1 < j ∧ j ≤ i + 2 then n.pointers (j - 1) else n.pointers j } := by
  induction rounds generalizing n i with
  | zero => omega
  | succ rounds ih =>
    unfold makeRoom
    split
    · next more =>
      have i₁ : (i + 1) % 2 ^ 32 = i + 1 := Nat.mod_eq_of_lt (by omega)
      have i₂ : (i + 2) % 2 ^ 32 = i + 2 := Nat.mod_eq_of_lt (by omega)
      rw [i₁, i₂, loadKey_of_lt (by omega)]
      simp only [Option.bind_eq_bind, Option.bind_some]
      rw [storeKey_of_lt _ (by omega)]
      simp only [Option.bind_some]
      rw [loadPointer_of_lt (by omega)]
      simp only [Option.bind_some]
      rw [storePointer_of_lt _ (by omega)]
      simp only [Option.bind_some]
      obtain ⟨i, rfl⟩ : ∃ k, i = k + 1 := ⟨i - 1, by omega⟩
      rw [pred32_succ (by omega), ih (by omega) (by omega) (by omega)]
      congr 2
      all_goals
        funext j
        simp only [Function.update_apply]
        grind
    · next all =>
      have eq : idx = i + 1 := by omega
      have none (j : Nat) : ¬ (idx < j ∧ j ≤ i + 1) := by omega
      have none' (j : Nat) : ¬ (idx + 1 < j ∧ j ≤ i + 2) := by omega
      simp only [none, none', if_false]

/-- From the index zero on, the unsigned counter passes zero and the loop reads a key that the
node does not have. -/
theorem makeRoom_zero (few : order ≤ 2 ^ 32) {rounds i : Nat} (bound : i + 1 < order - 1) :
    makeRoom order 0 rounds i n = none := by
  induction rounds generalizing n i with
  | zero => rfl
  | succ rounds ih =>
    unfold makeRoom
    rw [if_pos (Nat.zero_le i)]
    have i₁ : (i + 1) % 2 ^ 32 = i + 1 := Nat.mod_eq_of_lt (by omega)
    have i₂ : (i + 2) % 2 ^ 32 = i + 2 := Nat.mod_eq_of_lt (by omega)
    rw [i₁, i₂, loadKey_of_lt (by omega)]
    simp only [Option.bind_eq_bind, Option.bind_some]
    rw [storeKey_of_lt _ (by omega)]
    simp only [Option.bind_some]
    rw [loadPointer_of_lt (by omega)]
    simp only [Option.bind_some]
    rw [storePointer_of_lt _ (by omega)]
    simp only [Option.bind_some]
    cases i with
    | succ i =>
      rw [pred32_succ (by omega)]
      exact ih (by omega)
    | zero =>
      -- the counter is now the largest one
      cases rounds with
      | zero => rfl
      | succ rounds =>
        have wrapped : pred32 0 = 2 ^ 32 - 1 := rfl
        unfold makeRoom
        rw [if_pos (Nat.zero_le _), wrapped]
        unfold BtNode.loadKey
        rw [if_neg (by omega)]
        rfl

/-! ### Splitting -/

/-- The array with a gap, which has a cell more than are stored. -/
theorem spread_eq {α : Type} {load : Nat → Option α} {src : Nat → α} (gap : Nat) {length : Nat}
    (temp : Nat → α) {rounds i : Nat} (room : i + rounds < length)
    (loads : ∀ k < i + rounds, load k = some (src k)) :
    spread load gap length rounds i (if i ≤ gap then i else i + 1) temp = some fun j =>
      if i ≤ j ∧ j < i + rounds ∧ j < gap then src j
      else if i < j ∧ j ≤ i + rounds ∧ gap < j then src (j - 1) else temp j := by
  induction rounds generalizing i temp with
  | zero =>
    unfold spread
    congr 1
    funext j
    grind
  | succ rounds ih =>
    unfold spread
    rw [loads i (by omega)]
    simp only [Option.bind_eq_bind, Option.bind_some]
    have step : (if (if i ≤ gap then i else i + 1) = gap then (if i ≤ gap then i else i + 1) + 1
        else if i ≤ gap then i else i + 1) + 1 = if i + 1 ≤ gap then i + 1 else i + 1 + 1 := by
      split_ifs <;> omega
    rw [storeTemp_of_lt _ (by split_ifs <;> omega)]
    simp only [Option.bind_some]
    rw [step, ih _ (by omega) fun k lt => loads k (by omega)]
    congr 1
    funext j
    simp only [Function.update_apply]
    split_ifs <;> first | rfl | (congr 1; omega)

/-- The temporary array of a split has the new cell in the gap. -/
theorem spread_cells {α : Type} (load : Nat → Option α) (src temp : Nat → α)
    {gap length count : Nat} (room : count < length)
    (loads : ∀ k < count, load k = some (src k)) (le : gap ≤ count) (a : α) :
    ∃ temp' temp'', spread load gap length count 0 0 temp = some temp' ∧
      storeTemp length temp' gap a = some temp'' ∧
      cells temp'' (count + 1) = (cells src count).insertIdx gap a := by
  have loads' : ∀ k < 0 + count, load k = some (src k) := fun k lt => loads k (by omega)
  have spread := spread_eq gap temp (by omega : 0 + count < length) loads'
  rw [if_pos (Nat.zero_le gap)] at spread
  refine ⟨_, _, spread, storeTemp_of_lt a (by omega), ?_⟩
  apply List.ext_getElem?
  intro j
  rw [getElem?_cells, List.getElem?_insertIdx, getElem?_cells, getElem?_cells, length_cells]
  simp only [Function.update_apply]
  grind

/-- The cells are copied, and counted as keys. -/
theorem fill_eq {tempKey tempPointer : Nat → Option Nat} {tempKeys tempPointers : Nat → Nat}
    {asserted : BtNode → Nat} {rounds i j : Nat} (bound : j + rounds ≤ order - 1)
    (loads : ∀ k < i + rounds, tempKey k = some (tempKeys k) ∧
      tempPointer k = some (tempPointers k))
    (holds : ∀ m : BtNode, m.numKeys ≤ n.numKeys + rounds → asserted m < order) :
    fill order tempKey tempPointer asserted rounds i j n = some { n with
      keys := fun x => if j ≤ x ∧ x < j + rounds then tempKeys (x - j + i) else n.keys x
      pointers := fun x => if j ≤ x ∧ x < j + rounds then tempPointers (x - j + i) else n.pointers x
      numKeys := n.numKeys + rounds } := by
  induction rounds generalizing n i j with
  | zero =>
    have none (x : Nat) : ¬ (j ≤ x ∧ x < j + 0) := by omega
    simp only [none, if_false]
    rfl
  | succ rounds ih =>
    unfold fill
    obtain ⟨key, pointer⟩ := loads i (by omega)
    rw [pointer, key]
    simp only [Option.bind_eq_bind, Option.bind_some]
    rw [storePointer_of_lt _ (by omega)]
    simp only [Option.bind_some]
    rw [storeKey_of_lt _ (by omega)]
    simp only [Option.bind_some]
    rw [if_pos (holds _ (by dsimp only; omega)), ih (by omega) fun k lt => loads k (by omega)]
    · congr 2
      · funext x
        simp only [Function.update_apply]
        grind
      · funext x
        simp only [Function.update_apply]
        grind
      · dsimp only
        omega
    · intro m le
      exact holds m (by dsimp only at le; omega)

theorem clearRest_eq {rounds i : Nat} (bound : i + rounds ≤ order) :
    clearRest order rounds i n = some { n with
      pointers := fun x => if i ≤ x ∧ x < i + rounds then null else n.pointers x } := by
  induction rounds generalizing n i with
  | zero =>
    have none (x : Nat) : ¬ (i ≤ x ∧ x < i + 0) := by omega
    simp only [clearRest, none, if_false]
  | succ rounds ih =>
    unfold clearRest
    rw [storePointer_of_lt _ (by omega)]
    simp only [Option.bind_eq_bind, Option.bind_some]
    rw [ih (by omega)]
    congr 2
    funext x
    simp only [Function.update_apply]
    grind

/-! ### The index in the parent -/

/-- The loop ends at the first key that is not smaller; behind the last key it reads one that
the node does not have if the node is full. -/
theorem insertIdx_eq {key : Key} {rounds i : Nat} (bound : i + rounds ≤ order - 1) :
    insertIdx order n key rounds i =
      let stop := i + (keysFrom n i rounds).findIdx (fun k => ¬ k < key)
      if stop < order - 1 then some stop else none := by
  induction rounds generalizing i with
  | zero =>
    simp only [insertIdx, keysFrom, List.range_zero, List.map_nil, List.findIdx_nil, Nat.add_zero]
    unfold BtNode.loadKey
    split <;> rfl
  | succ rounds ih =>
    rw [insertIdx, loadKey_of_lt (by omega), keysFrom_succ, List.findIdx_cons]
    simp only [Option.bind_eq_bind, Option.bind_some]
    by_cases lt : n.keys i < key
    · rw [if_pos lt, ih (by omega)]
      simp only [lt, not_true_eq_false, decide_false, cond_false]
      rw [Nat.add_right_comm, Nat.add_assoc]
    · rw [if_neg lt]
      simp only [lt, not_false_eq_true, decide_true, cond_true, Nat.add_zero]
      rw [if_pos (by omega)]

end DBx1000.Btree
