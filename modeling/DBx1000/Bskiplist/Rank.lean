import Mathlib.Order.Bounds.Basic
import DBx1000.Bskiplist.Traversal

/-!
# The two rank searches

`find_rank_linear` stops at the first key that is larger, `find_rank_binary` halves a range behind
a base index. Builds with AVX2 and the paths under a lock take the first one, all others the
second one.

## Main result

`find_rank_agree`: on keys in order both find the last key that is not larger, or index zero.

## Proof strategy

The keys of a range `base`, `base + len` decide: all keys behind the range are larger, and the key
at `base` is not, unless `base` is zero. Each turn of the halving keeps this.
-/

namespace DBx1000.Bskiplist

open Program

variable {m : Mem} {n : Addr} {num : Nat} {key : Key}

/-- The first `num` keys of a node are in order. -/
def Sorted (m : Mem) (n : Addr) (num : Nat) : Prop :=
  ∀ i j, i ≤ j → j < num → (m.node n).keys i ≤ (m.node n).keys j

/-- The index of the last key that is not larger, or zero. -/
def IsRank (m : Mem) (n : Addr) (num : Nat) (key : Key) (r : Nat) : Prop :=
  (r < num ∧ (m.node n).keys r ≤ key ∨ r = 0) ∧ ∀ i, r < i → i < num → key < (m.node n).keys i

theorem ends_loadKey {i : Nat} {Q : Key → Mem → Prop} :
    (loadKey n i).Ends exec Q m ↔ Q ((m.node n).keys i) m := Iff.rfl

/-! ### The linear search -/

/-- The loop stops behind the keys that are not larger. -/
theorem linearLoop_ends {turns i : Nat} (le : i ≤ num) (enough : num ≤ i + turns)
    (passed : ∀ j < i, (m.node n).keys j ≤ key) :
    (linearLoop n num key turns i).Ends exec (fun r t => t = m ∧ r ≤ num ∧
      (∀ j < r, (m.node n).keys j ≤ key) ∧ (r < num → key < (m.node n).keys r)) m := by
  induction turns generalizing i with
  | zero => exact ⟨rfl, le, passed, fun lt => by omega⟩
  | succ turns ih =>
    unfold linearLoop
    split
    · next lt =>
      rw [Prog.ends_bind, ends_loadKey]
      split
      · next small =>
        apply ih (by omega) (by omega)
        intro j hj
        rcases Nat.lt_succ_iff_lt_or_eq.mp hj with hj | rfl
        · exact passed j hj
        · exact small
      · next large => exact ⟨rfl, le, passed, fun _ => Nat.lt_of_not_le large⟩
    · next all => exact ⟨rfl, le, passed, fun lt => absurd lt all⟩

theorem findRankLinear_ends (key : Key) (sorted : Sorted m n num) :
    (findRankLinear n num key).Ends exec (fun r t => t = m ∧ IsRank m n num key r) m := by
  unfold findRankLinear
  rw [Prog.ends_bind]
  apply (linearLoop_ends (Nat.zero_le num) (by omega) (fun j hj => absurd hj (by omega))).mono
  rintro i t ⟨rfl, le, passed, stopped⟩
  -- all keys from the one that stops the loop on are larger
  have behind (j : Nat) (ge : i ≤ j) (lt : j < num) : key < (t.node n).keys j :=
    Nat.lt_of_lt_of_le (stopped (by omega)) (sorted i j ge lt)
  rw [Prog.ends_pure]
  refine ⟨rfl, ?_⟩
  split
  · next some =>
    exact ⟨.inl ⟨by omega, passed (i - 1) (by omega)⟩, fun j gt lt => behind j (by omega) lt⟩
  · next none => exact ⟨.inr rfl, fun j gt lt => behind j (by omega) lt⟩

/-! ### The binary search -/

/-- The loop ends with a range of one key, or none. -/
theorem binaryLoop_ends (sorted : Sorted m n num) {turns base len : Nat} (enough : len ≤ turns + 1)
    (bound : base + len ≤ num) (inside : base < num ∨ base = 0)
    (first : (m.node n).keys base ≤ key ∨ base = 0)
    (behind : ∀ i, base + len ≤ i → i < num → key < (m.node n).keys i) :
    (binaryLoop n key turns base len).Ends exec (fun r t => t = m ∧ (r < num ∨ r = 0) ∧
      ((m.node n).keys r ≤ key ∨ r = 0) ∧ ∀ i, r < i → i < num → key < (m.node n).keys i) m := by
  induction turns generalizing base len with
  | zero => exact ⟨rfl, inside, first, fun i gt => behind i (by omega)⟩
  | succ turns ih =>
    unfold binaryLoop
    split
    · next more =>
      rw [Prog.ends_bind, ends_loadKey]
      split
      · next small =>
        apply ih (by omega) (by omega) (.inl (by omega)) (.inl small)
        exact fun i ge => behind i (by omega)
      · next large =>
        apply ih (by omega) (by omega) inside first
        intro i ge lt
        -- the keys in the upper half are not smaller than its first one
        have above : base + len / 2 ≤ i := by omega
        exact Nat.lt_of_lt_of_le (Nat.lt_of_not_le large) (sorted _ i above lt)
    · next one => exact ⟨rfl, inside, first, fun i gt => behind i (by omega)⟩

theorem findRank_ends (key : Key) (sorted : Sorted m n num) :
    (findRank n num key).Ends exec (fun r t => t = m ∧ IsRank m n num key r) m := by
  unfold findRank
  rw [Prog.ends_bind]
  apply (binaryLoop_ends sorted (by omega) (by omega) (.inr rfl) (.inr rfl)
    (fun i ge lt => by omega)).mono
  rintro i t ⟨rfl, inside, first, behind⟩
  rw [Prog.ends_bind, ends_loadKey]
  split
  · next large =>
    -- only the first key can be larger
    obtain rfl : i = 0 := first.resolve_left (Nat.not_le.mpr large)
    exact ⟨rfl, .inr rfl, behind⟩
  · next small =>
    refine ⟨rfl, ?_, behind⟩
    exact inside.imp (fun lt => ⟨lt, Nat.le_of_not_lt small⟩) id

/-! ### Agreement -/

theorem IsRank.greatest {r : Nat} (rank : IsRank m n num key r) {i : Nat} (lt : i < num)
    (small : (m.node n).keys i ≤ key) :
    IsGreatest {i | i < num ∧ (m.node n).keys i ≤ key} r := by
  obtain ⟨is, behind⟩ := rank
  have above (j : Nat) (mem : j < num ∧ (m.node n).keys j ≤ key) : j ≤ r := by
    by_contra gt
    exact absurd mem.2 (Nat.not_le.mpr (behind j (Nat.lt_of_not_le gt) mem.1))
  refine ⟨?_, above⟩
  rcases is with is | rfl
  · exact is
  · obtain rfl : i = 0 := Nat.le_zero.mp (above i ⟨lt, small⟩)
    exact ⟨lt, small⟩

theorem IsRank.zero {r : Nat} (rank : IsRank m n num key r)
    (none : ∀ i < num, key < (m.node n).keys i) : r = 0 := by
  rcases rank.1 with ⟨lt, small⟩ | zero
  · exact absurd small (Nat.not_le.mpr (none r lt))
  · exact zero

theorem IsRank.unique {r r' : Nat} (rank : IsRank m n num key r) (rank' : IsRank m n num key r') :
    r = r' := by
  by_cases some : ∃ i < num, (m.node n).keys i ≤ key
  · obtain ⟨i, lt, small⟩ := some
    exact (rank.greatest lt small).unique (rank'.greatest lt small)
  · have none (i : Nat) (lt : i < num) : key < (m.node n).keys i :=
      Nat.lt_of_not_le fun small => some ⟨i, lt, small⟩
    rw [rank.zero none, rank'.zero none]

/-- **The searches agree.** They leave the memory as it is. -/
theorem find_rank_agree (m : Mem) (n : Addr) (num : Nat) (key : Key) (sorted : Sorted m n num) :
    ∃ r, (findRankLinear n num key).run exec m = some (r, m) ∧
      (findRank n num key).run exec m = some (r, m) ∧
        (∀ i < num, (m.node n).keys i ≤ key →
          IsGreatest {i | i < num ∧ (m.node n).keys i ≤ key} r) ∧
        ((∀ i < num, key < (m.node n).keys i) → r = 0) := by
  obtain ⟨r, t, linear, rfl, rank⟩ := Prog.ends_iff.mp (findRankLinear_ends key sorted)
  obtain ⟨r', t', binary, rfl, rank'⟩ := Prog.ends_iff.mp (findRank_ends key sorted)
  obtain rfl := rank.unique rank'
  exact ⟨r, linear, binary, fun i lt small => rank.greatest lt small, rank.zero⟩

/-- A memory in which every node has the keys 4, 4 and 9. -/
def duplicatesMem : Mem where
  ctrl _ := 0
  node _ := { Node.zero with numElts := 3, keys := fun i => if i < 2 then 4 else 9 }
  fresh := 8
  itemNext _ := null
  retired := []
  destroyed := []
  output := []

/-- Among duplicates both searches find the last one. -/
theorem find_rank_agree_duplicates :
    (findRankLinear 7 3 4).run exec duplicatesMem = some (1, duplicatesMem) ∧
      (findRank 7 3 4).run exec duplicatesMem = some (1, duplicatesMem) := by
  have sorted : Sorted duplicatesMem 7 3 := by
    intro i j le lt
    change (if i < 2 then 4 else 9 : Nat) ≤ (if j < 2 then 4 else 9 : Nat)
    split <;> split <;> omega
  obtain ⟨r, linear, binary, greatest, -⟩ := find_rank_agree duplicatesMem 7 3 4 sorted
  obtain rfl : r = 1 := by
    refine (greatest 1 (by decide) (by decide)).unique ⟨by decide, ?_⟩
    rintro i ⟨lt, small⟩
    change (if i < 2 then 4 else 9 : Nat) ≤ 4 at small
    split at small <;> omega
  exact ⟨linear, binary⟩

end DBx1000.Bskiplist
