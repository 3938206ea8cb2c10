import Mathlib.Algebra.Order.Ring.Nat
import Mathlib.Data.List.Perm.Subperm
import Mathlib.Data.Nat.Find
import DBx1000.Library.Firsts

/-!
# The items of a new order

`tpcc_query::gen_new_order` behind its random draws: the loop that removes items whose id has come
before, in place, and the list of the partitions that the query accesses. The loops count in
`UInt32`, `ol_cnt` is a `uint64_t`; accesses are checked against the lengths of the two arrays,
and a step down from index zero has no result.

## Main result

`remove_duplicates`: with at most 2^32 items, and fewer ids, the loops end; the first `ol_cnt` items
are the first occurrences of the ids in their order, and the partitions of their warehouses and the
home warehouse are listed once each.

## Proof strategy

Before each turn of the outer loop the array has the first occurrences of the items that are done,
and then the items to come as they were. In a turn at most one item of the part that is done has
the id of the next item; if one has, the items to come move down, and the rest of the inner loop
compares first occurrences with each other.
-/

namespace DBx1000.Tpcc

open Shift Firsts

/-- `Item_no`. -/
structure ItemNo where
  olIId : Nat
  olSupplyWId : Nat
  olQuantity : Nat
  deriving DecidableEq

/-- `i++` for a `UInt32`. -/
def succ32 (i : Nat) : Nat := (i + 1) % 2 ^ 32

section Loops

-- the length of the array `items`
variable (size : Nat)

def load (items : Nat → ItemNo) (i : Nat) : Option ItemNo :=
  if i < size then some (items i) else none

def store (items : Nat → ItemNo) (i : Nat) (item : ItemNo) : Option (Nat → ItemNo) :=
  if i < size then some (Function.update items i item) else none

/-- `for (UInt32 k = i; k < ol_cnt - 1; k++) items[k] = items[k + 1];`, in so many turns. -/
def moveDown (olCnt : Nat) : (turns k : Nat) → (Nat → ItemNo) → Option (Nat → ItemNo)
  | 0, _, _ => none
  | turns + 1, k, items =>
    if k < olCnt - 1 then do
      let items ← store size items k (← load size items (succ32 k))
      moveDown olCnt turns (succ32 k) items
    else some items

/-- The loop over `j`; it changes `i` and `ol_cnt`. -/
def compareItems (limit : Nat) : (turns j i olCnt : Nat) → (Nat → ItemNo) →
    Option (Nat × Nat × (Nat → ItemNo))
  | 0, _, _, _, _ => none
  | turns + 1, j, i, olCnt, items =>
    if j < i then do
      if (← load size items i).olIId = (← load size items j).olIId then
        let items ← moveDown size olCnt limit i items
        if i = 0 then none
        else compareItems limit turns (succ32 j) (i - 1) (olCnt - 1) items
      else compareItems limit turns (succ32 j) i olCnt items
    else some (i, olCnt, items)

/-- The loop over `i`. -/
def removeFrom (limit : Nat) : (turns i olCnt : Nat) → (Nat → ItemNo) →
    Option (Nat × (Nat → ItemNo))
  | 0, _, _, _ => none
  | turns + 1, i, olCnt, items =>
    if i < olCnt then do
      let (i, olCnt, items) ← compareItems size limit limit 0 i olCnt items
      removeFrom limit turns (succ32 i) olCnt items
    else some (olCnt, items)

/-- The removal of duplicates from a full array. -/
def removeDuplicates (limit : Nat) (items : Nat → ItemNo) : Option (Nat × (Nat → ItemNo)) :=
  removeFrom size limit limit 0 size items

/-- `wh_to_part`, without its assertion that there are at least as many warehouses as partitions. -/
def whToPart (partCnt wid : Nat) : Nat := wid % partCnt

/-- The search for a partition in `part_to_access`, which has `partCnt` elements, and its entry. -/
def addPart (partCnt part : Nat) (parts : List Nat) : Option (List Nat) :=
  if part ∈ parts then some parts
  else if parts.length < partCnt then some (parts ++ [part])
  else none

/-- The loop that updates `part_to_access`. -/
def addParts (partCnt olCnt : Nat) (items : Nat → ItemNo) :
    (turns i : Nat) → List Nat → Option (List Nat)
  | 0, _, _ => none
  | turns + 1, i, parts =>
    if i < olCnt then do
      let item ← load size items i
      let parts ← addPart partCnt (whToPart partCnt item.olSupplyWId) parts
      addParts partCnt olCnt items turns (succ32 i) parts
    else some parts

/-- `gen_new_order` behind the draws: the assertion stands between the two loops. -/
def genNewOrder (partCnt wId limit : Nat) (items : Nat → ItemNo) :
    Option (Nat × (Nat → ItemNo) × List Nat) := do
  let (olCnt, items) ← removeDuplicates size limit items
  if ∀ i < olCnt, ∀ j < i, (items i).olIId ≠ (items j).olIId then
    let parts ← addParts size partCnt olCnt items limit 0 [whToPart partCnt wId]
    some (olCnt, items, parts)
  else none

end Loops

/-! ### One turn -/

section Turns

variable {size limit turns i j k olCnt : Nat} {items : Nat → ItemNo}

theorem succ32_of_lt (lt : i + 1 < 2 ^ 32) : succ32 i = i + 1 := Nat.mod_eq_of_lt lt

theorem load_of_lt (lt : i < size) : load size items i = some (items i) := if_pos lt

/-- The items behind `k` move down by one. -/
def closed (k olCnt : Nat) (items : Nat → ItemNo) : Nat → ItemNo :=
  fun j => if k ≤ j ∧ j < olCnt - 1 then items (j + 1) else items j

theorem moveDown_eq (bound : olCnt ≤ size) (small : olCnt ≤ 2 ^ 32) (enough : olCnt - 1 - k < turns) :
    moveDown size olCnt turns k items = some (closed k olCnt items) := by
  induction turns generalizing k items with
  | zero => omega
  | succ turns ih =>
    unfold moveDown
    split
    · next more =>
      rw [succ32_of_lt (by omega), load_of_lt (by omega)]
      simp only [Option.bind_eq_bind, Option.bind_some]
      rw [store, if_pos (by omega)]
      simp only [Option.bind_some]
      rw [ih (by omega)]
      congr 1
      funext j
      simp only [closed, Function.update_apply]
      grind
    · next done =>
      congr 1
      funext j
      exact (if_neg (by omega)).symm

/-- No item from `j` on has the id: nothing happens. -/
theorem compareItems_new (inside : i < size) (small : i < 2 ^ 32)
    (new : ∀ j', j ≤ j' → j' < i → (items i).olIId ≠ (items j').olIId) (enough : i - j < turns) :
    compareItems size limit turns j i olCnt items = some (i, olCnt, items) := by
  induction turns generalizing j with
  | zero => omega
  | succ turns ih =>
    unfold compareItems
    split
    · next more =>
      rw [load_of_lt inside, load_of_lt (Nat.lt_trans more inside)]
      simp only [Option.bind_eq_bind, Option.bind_some]
      rw [if_neg (new j (Nat.le_refl j) more), succ32_of_lt (by omega)]
      exact ih (fun j' ge => new j' (by omega)) (by omega)
    · rfl

/-- An earlier item has the id: the items to come move down, and the rest of the loop finds
nothing. -/
theorem compareItems_old {j₀ : Nat} (le : j ≤ j₀) (lt : j₀ < i) (more : i < olCnt)
    (bound : olCnt ≤ size) (small : olCnt ≤ 2 ^ 32) (long : olCnt < limit)
    (before : ∀ j', j ≤ j' → j' < j₀ → (items i).olIId ≠ (items j').olIId)
    (same : (items i).olIId = (items j₀).olIId)
    (distinct : ∀ j', j' < i - 1 → (items (i - 1)).olIId ≠ (items j').olIId)
    (enough : i - j < turns) :
    compareItems size limit turns j i olCnt items =
      some (i - 1, olCnt - 1, closed i olCnt items) := by
  induction turns generalizing j with
  | zero => omega
  | succ turns ih =>
    unfold compareItems
    rw [if_pos (Nat.lt_of_le_of_lt le lt), load_of_lt (Nat.lt_of_lt_of_le more bound),
      load_of_lt (by omega)]
    simp only [Option.bind_eq_bind, Option.bind_some]
    by_cases here : j = j₀
    · subst here
      rw [if_pos same, moveDown_eq bound small (by omega)]
      simp only [Option.bind_some]
      rw [if_neg (by omega), succ32_of_lt (by omega)]
      have kept (j' : Nat) (lt : j' < i) : closed i olCnt items j' = items j' :=
        if_neg (by omega)
      refine compareItems_new (by omega) (by omega) (fun j' ge lt' => ?_) (by omega)
      rw [kept (i - 1) (by omega), kept j' (by omega)]
      exact distinct j' lt'
    · rw [if_neg (before j (Nat.le_refl j) (by omega)), succ32_of_lt (by omega)]
      exact ih (by omega) (fun j' ge => before j' (by omega)) (by omega)

end Turns

/-! ### All turns -/

section Run

variable {size limit : Nat} (orig : Nat → ItemNo)

/-- The first occurrences of the first `p` items. -/
abbrev kept (p : Nat) : List ItemNo := firsts ItemNo.olIId orig p

/-- Before the turn for item number `p`: the first occurrences, and the items to come. -/
structure Done (size p i olCnt : Nat) (items : Nat → ItemNo) : Prop where
  le : p ≤ size
  index : i = (kept orig p).length
  count : olCnt = i + (size - p)
  front : cells items i = kept orig p
  back : ∀ q, p ≤ q → q < size → items (i + (q - p)) = orig q

variable {orig} {p i olCnt turns : Nat} {items : Nat → ItemNo}

namespace Done

theorem front_at (done : Done orig size p i olCnt items) {j : Nat} (lt : j < i) :
    (kept orig p)[j]? = some (items j) := by
  rw [← done.front, getElem?_cells, if_pos lt]

/-- The items that are done have different ids. -/
theorem distinct (done : Done orig size p i olCnt items) {j j' : Nat} (lt : j < j') (lt' : j' < i) :
    (items j').olIId ≠ (items j).olIId := by
  have nodup := nodup_firsts ItemNo.olIId orig p
  have at_ : ((kept orig p).map ItemNo.olIId)[j]? = some (items j).olIId := by
    rw [List.getElem?_map, done.front_at (by omega)]
    rfl
  have at_' : ((kept orig p).map ItemNo.olIId)[j']? = some (items j').olIId := by
    rw [List.getElem?_map, done.front_at lt']
    rfl
  intro same
  have eq := (List.getElem?_inj (i := j) (j := j') (by
    rw [List.length_map, ← done.index]
    omega) nodup).mp (by rw [at_, at_', same])
  omega

/-- The next item comes for the first time if no item that is done has its id. -/
theorem isFirst (done : Done orig size p i olCnt items) (more : p < size) :
    IsFirst ItemNo.olIId orig p ↔ ∀ j < i, (items i).olIId ≠ (items j).olIId := by
  have next : items i = orig p := by
    have := done.back p (Nat.le_refl p) more
    rwa [Nat.sub_self] at this
  rw [isFirst_iff, next]
  constructor
  · intro new j lt same
    refine new (items j) ?_ same.symm
    exact List.mem_of_getElem? (done.front_at lt)
  · intro new a mem same
    obtain ⟨j, at_⟩ := List.mem_iff_getElem?.mp mem
    have lt : j < i := by
      rw [done.index]
      exact (List.getElem?_eq_some_iff.mp at_).1
    rw [done.front_at lt] at at_
    exact new j lt (by rw [Option.some.inj at_, same])

/-- A turn for an item with a new id. -/
theorem new (done : Done orig size p i olCnt items) (more : p < size)
    (first : IsFirst ItemNo.olIId orig p) : Done orig size (p + 1) (i + 1) olCnt items := by
  have next : items i = orig p := by
    have := done.back p (Nat.le_refl p) more
    rwa [Nat.sub_self] at this
  have split : kept orig (p + 1) = kept orig p ++ [orig p] := by
    rw [kept, firsts_succ, if_pos first]
  have count := done.count
  refine ⟨more, ?_, by omega, ?_, fun q ge lt => ?_⟩
  · rw [split, List.length_append, ← done.index, List.length_singleton]
  · rw [cells_succ, done.front, next, split]
  · rw [← done.back q (by omega) lt]
    congr 1
    omega

/-- A turn for an item with an old id. -/
theorem old (done : Done orig size p i olCnt items) (more : p < size)
    (again : ¬ IsFirst ItemNo.olIId orig p) :
    Done orig size (p + 1) i (olCnt - 1) (closed i olCnt items) := by
  have same : kept orig (p + 1) = kept orig p := by
    rw [kept, firsts_succ, if_neg again, List.append_nil]
  have count := done.count
  refine ⟨more, ?_, by omega, ?_, fun q ge lt => ?_⟩
  · rw [same]
    exact done.index
  · rw [same, ← done.front]
    exact cells_congr fun j lt => if_neg (by omega)
  · rw [← done.back q (by omega) lt, closed, if_pos (by omega)]
    congr 1
    omega

end Done

/-- The outer loop leaves the first occurrences. -/
theorem removeFrom_spec (done : Done orig size p i olCnt items) (small : size ≤ 2 ^ 32)
    (few : (kept orig size).length < 2 ^ 32) (long : size < limit) (enough : size - p < turns) :
    ∃ items', removeFrom size limit turns i olCnt items =
      some ((kept orig size).length, items') ∧
        cells items' (kept orig size).length = kept orig size := by
  induction turns generalizing p i olCnt items with
  | zero => omega
  | succ turns ih =>
    have count := done.count
    have index := done.index
    have room : (kept orig p).length ≤ p := length_firsts_le ItemNo.olIId orig p
    have le := done.le
    unfold removeFrom
    split
    · next more =>
      have more : p < size := by omega
      have mono : (kept orig (p + 1)).length ≤ (kept orig size).length :=
        length_firsts_mono ItemNo.olIId orig more
      by_cases first : IsFirst ItemNo.olIId orig p
      · -- a new id: the inner loop runs to the end and the item stays
        have done' := done.new more first
        have index' := done'.index
        have new := (done.isFirst more).mp first
        rw [compareItems_new (by omega) (by omega) (fun j _ lt => new j lt) (by omega)]
        simp only [Option.bind_eq_bind, Option.bind_some]
        rw [succ32_of_lt (by omega)]
        exact ih done' (by omega)
      · have done' := done.old more first
        -- the first item with this id
        obtain ⟨j, lt, same⟩ : ∃ j < i, (items i).olIId = (items j).olIId := by
          rw [done.isFirst more] at first
          push Not at first
          exact first
        let j₀ := Nat.find (⟨j, lt, same⟩ : ∃ j, j < i ∧ (items i).olIId = (items j).olIId)
        obtain ⟨lt₀, same₀⟩ :=
          Nat.find_spec (⟨j, lt, same⟩ : ∃ j, j < i ∧ (items i).olIId = (items j).olIId)
        have before (j' : Nat) (lt' : j' < j₀) : (items i).olIId ≠ (items j').olIId := fun same' =>
          Nat.find_min (⟨j, lt, same⟩ : ∃ j, j < i ∧ (items i).olIId = (items j).olIId) lt'
            ⟨Nat.lt_trans lt' lt₀, same'⟩
        rw [compareItems_old (Nat.zero_le j₀) lt₀ (by omega) (by omega) (by omega) (by omega)
          (fun j' _ => before j') same₀ (fun j' lt' => done.distinct lt' (by omega)) (by omega)]
        simp only [Option.bind_eq_bind, Option.bind_some]
        rw [succ32_of_lt (by omega), Nat.sub_add_cancel (by omega)]
        exact ih done' (by omega)
    · -- all items have been read
      next all =>
      obtain rfl : p = size := by omega
      obtain rfl : olCnt = i := by omega
      exact ⟨items, by rw [index], by rw [← index]; exact done.front⟩

theorem removeDuplicates_spec (small : size ≤ 2 ^ 32) (few : (kept orig size).length < 2 ^ 32)
    (long : size < limit) :
    ∃ items', removeDuplicates size limit orig = some ((kept orig size).length, items') ∧
      cells items' (kept orig size).length = kept orig size := by
  refine removeFrom_spec (p := 0) ⟨Nat.zero_le _, rfl, (Nat.zero_add _).symm, rfl, ?_⟩ small few
    long (by omega)
  intro q _ _
  rw [Nat.sub_zero, Nat.zero_add]

end Run

/-! ### Partitions -/

section Parts

variable {size partCnt olCnt turns i : Nat} {parts : List Nat} (items : Nat → ItemNo)

/-- Different partitions, all below their number. -/
structure Listed (partCnt : Nat) (parts : List Nat) : Prop where
  nodup : parts.Nodup
  small : ∀ p ∈ parts, p < partCnt

theorem addPart_spec (listed : Listed partCnt parts) {part : Nat} (lt : part < partCnt) :
    ∃ parts', addPart partCnt part parts = some parts' ∧ Listed partCnt parts' ∧
      ∀ p, p ∈ parts' ↔ p ∈ parts ∨ p = part := by
  unfold addPart
  split
  · next old =>
    refine ⟨parts, rfl, listed, fun p => ⟨.inl, ?_⟩⟩
    rintro (mem | rfl)
    · exact mem
    · exact old
  · next new =>
    have small : ∀ p ∈ part :: parts, p < partCnt := by
      intro p mem
      rcases List.mem_cons.mp mem with rfl | mem
      · exact lt
      · exact listed.small p mem
    have nodup : (part :: parts).Nodup := List.nodup_cons.mpr ⟨new, listed.nodup⟩
    -- the array is long enough for all partitions
    have room : (part :: parts).length ≤ (List.range partCnt).length :=
      (List.subperm_of_subset nodup fun p mem => List.mem_range.mpr (small p mem)).length_le
    rw [List.length_cons, List.length_range] at room
    have perm : (parts ++ [part]).Perm (part :: parts) := List.perm_append_singleton part parts
    refine ⟨parts ++ [part], if_pos room, ⟨perm.nodup_iff.mpr nodup, ?_⟩, fun p => ?_⟩
    · exact fun p mem => small p (perm.mem_iff.mp mem)
    · rw [perm.mem_iff, List.mem_cons, or_comm]

theorem addParts_spec (pos : 0 < partCnt) (bound : olCnt ≤ size) (small : olCnt < 2 ^ 32)
    (listed : Listed partCnt parts) (enough : olCnt - i < turns) :
    ∃ parts', addParts size partCnt olCnt items turns i parts = some parts' ∧
      Listed partCnt parts' ∧ ∀ p, p ∈ parts' ↔ p ∈ parts ∨
        ∃ q, i ≤ q ∧ q < olCnt ∧ whToPart partCnt (items q).olSupplyWId = p := by
  induction turns generalizing i parts with
  | zero => omega
  | succ turns ih =>
    unfold addParts
    split
    · next more =>
      obtain ⟨parts₁, added, listed₁, mem₁⟩ := addPart_spec listed
        (Nat.mod_lt (items i).olSupplyWId pos)
      obtain ⟨parts', rest, listed', mem'⟩ := ih listed₁ (i := i + 1) (by omega)
      rw [load_of_lt (by omega), succ32_of_lt (by omega)]
      simp only [Option.bind_eq_bind, Option.bind_some]
      unfold whToPart
      rw [added]
      refine ⟨parts', rest, listed', fun p => ?_⟩
      rw [mem', mem₁, or_assoc]
      refine or_congr_right ⟨?_, ?_⟩
      · -- the partition of this item, or that of a later one
        rintro (rfl | ⟨q, ge, lt, is⟩)
        · exact ⟨i, Nat.le_refl i, more, rfl⟩
        · exact ⟨q, by omega, lt, is⟩
      · rintro ⟨q, ge, lt, is⟩
        rcases Nat.eq_or_lt_of_le ge with rfl | gt
        · exact .inl is.symm
        · exact .inr ⟨q, gt, lt, is⟩
    · next all =>
      refine ⟨parts, rfl, listed, fun p => ⟨.inl, ?_⟩⟩
      rintro (mem | ⟨q, ge, lt, -⟩)
      · exact mem
      · omega

end Parts

/-! ### New orders -/

/-- **Duplicates are removed.** -/
theorem remove_duplicates (size partCnt wId : Nat) (items : Nat → ItemNo)
    (pos : 0 < partCnt) (small : size ≤ 2 ^ 32)
    (few : (firsts ItemNo.olIId items size).length < 2 ^ 32) :
    ∀ limit, size < limit → ∃ olCnt items' parts,
      genNewOrder size partCnt wId limit items = some (olCnt, items', parts) ∧
        cells items' olCnt = firsts ItemNo.olIId items size ∧ parts.Nodup ∧
          ∀ p, p ∈ parts ↔ p = whToPart partCnt wId ∨
            ∃ a ∈ firsts ItemNo.olIId items size, whToPart partCnt a.olSupplyWId = p := by
  intro limit long
  obtain ⟨items', removed, front⟩ := removeDuplicates_spec small few long
  have le : (kept items size).length ≤ size := length_firsts_le ItemNo.olIId items size
  have listed : Listed partCnt [whToPart partCnt wId] := by
    refine ⟨by simp, fun p mem => ?_⟩
    rw [List.mem_singleton.mp mem]
    exact Nat.mod_lt wId pos
  obtain ⟨parts, added, listed', mem⟩ := addParts_spec (i := 0) items' pos le few listed
    (show (kept items size).length - 0 < limit by omega)
  refine ⟨_, items', parts, ?_, front, listed'.nodup, fun p => ?_⟩
  · -- the ids of first occurrences differ, so the assertion holds
    have differ : ∀ i < (kept items size).length, ∀ j < i,
        (items' i).olIId ≠ (items' j).olIId := by
      intro i lt j lt'
      have done : Done items size size (kept items size).length (kept items size).length items' :=
        ⟨Nat.le_refl _, rfl, by omega, front, fun q ge lt => by omega⟩
      exact done.distinct lt' lt
    unfold genNewOrder
    rw [removed]
    simp only [Option.bind_eq_bind, Option.bind_some]
    rw [if_pos differ, added]
    rfl
  · -- the partitions are those of the items that stay, and of the home warehouse
    rw [mem, List.mem_singleton]
    change _ ↔ _ ∨ ∃ a ∈ kept items size, _
    have inside (a : ItemNo) : a ∈ kept items size ↔ a ∈ cells items' (kept items size).length := by
      rw [front]
    refine or_congr_right ⟨?_, ?_⟩
    · rintro ⟨q, -, lt, is⟩
      exact ⟨items' q, (inside _).mpr (List.mem_map.mpr ⟨q, List.mem_range.mpr lt, rfl⟩), is⟩
    · rintro ⟨a, mem, is⟩
      obtain ⟨q, lt, rfl⟩ := List.mem_map.mp ((inside a).mp mem)
      exact ⟨q, Nat.zero_le q, List.mem_range.mp lt, is⟩

/-- Eight items of three ids, supplied by three warehouses in two partitions. -/
theorem remove_duplicates_eight :
    ∃ items' parts, genNewOrder 8 2 1 9 (fun k => ⟨k / 2 % 3 + k / 7, k % 3 + 1, 1⟩) =
        some (3, items', parts) ∧
      cells items' 3 = [⟨0, 1, 1⟩, ⟨1, 3, 1⟩, ⟨2, 2, 1⟩] ∧ parts.Nodup ∧
        ∀ p, p ∈ parts ↔ p = 1 ∨ p = 0 := by
  have firsts_eq : firsts ItemNo.olIId (fun k => ⟨k / 2 % 3 + k / 7, k % 3 + 1, 1⟩) 8 =
      [⟨0, 1, 1⟩, ⟨1, 3, 1⟩, ⟨2, 2, 1⟩] := by decide
  obtain ⟨olCnt, items', parts, run, front, nodup, mem⟩ := remove_duplicates 8 2 1
    (fun k => ⟨k / 2 % 3 + k / 7, k % 3 + 1, 1⟩) (by decide) (by decide)
    (by rw [firsts_eq]; decide) 9 (by decide)
  rw [firsts_eq] at front mem
  obtain rfl : olCnt = 3 := by
    have := congrArg List.length front
    rwa [length_cells] at this
  refine ⟨items', parts, run, front, nodup, fun p => ?_⟩
  rw [mem]
  simp [whToPart, eq_comm]

/-! ### Too many ids -/

/-- A turn of the outer loop for an item with a new id can only be spent or do nothing. -/
theorem compareItems_distinct {size limit turns i j olCnt : Nat} {items : Nat → ItemNo}
    (distinct : ∀ a b, (items a).olIId = (items b).olIId → a = b) (bound : olCnt ≤ size)
    (more : i < olCnt) {r : Nat × Nat × (Nat → ItemNo)}
    (run : compareItems size limit turns j i olCnt items = some r) : r = (i, olCnt, items) := by
  induction turns generalizing j with
  | zero => cases run
  | succ turns ih =>
    unfold compareItems at run
    split at run
    · next lt =>
      rw [load_of_lt (by omega), load_of_lt (by omega)] at run
      simp only [Option.bind_eq_bind, Option.bind_some] at run
      rw [if_neg fun same => by have := distinct _ _ same; omega] at run
      exact ih run
    · cases run
      rfl

/-- With 2^32 items of different ids, `i` is always smaller than `ol_cnt`. -/
theorem remove_duplicates_endless : ¬ ∀ (size partCnt wId : Nat) (items : Nat → ItemNo),
    0 < partCnt → ∃ enough, ∀ limit, enough < limit →
      (genNewOrder size partCnt wId limit items).isSome := by
  intro ends
  obtain ⟨enough, result⟩ := ends (2 ^ 32) 1 1 (fun k => ⟨k, 1, 1⟩) Nat.one_pos
  have endless (limit turns i : Nat) (lt : i < 2 ^ 32) :
      removeFrom (2 ^ 32) limit turns i (2 ^ 32) (fun k => ⟨k, 1, 1⟩) = none := by
    induction turns generalizing i with
    | zero => rfl
    | succ turns ih =>
      unfold removeFrom
      rw [if_pos lt]
      cases turn : compareItems (2 ^ 32) limit limit 0 i (2 ^ 32) (fun k => ⟨k, 1, 1⟩) with
      | none => rfl
      | some r =>
        obtain rfl := compareItems_distinct (fun a b same => same) (Nat.le_refl _) lt turn
        exact ih (succ32 i) (Nat.mod_lt _ (by decide))
  have some_ := result (enough + 1) (Nat.lt_succ_self enough)
  unfold genNewOrder removeDuplicates at some_
  rw [endless _ _ 0 (by decide)] at some_
  cases some_

end DBx1000.Tpcc
