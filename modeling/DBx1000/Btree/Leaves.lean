import Mathlib.Data.List.Perm.Subperm
import DBx1000.Btree.Search

/-!
# The leaves of the tree

What one call of `index_insert` does to the leaves and, through a split, to the levels above.
The bounds of the leaves and their keys, as ranks, are in one order; from that follow the order
of the keys of every node and that they lie between the separators above.

## Main results

- `HasLevels.insert_mem`: a key that is there gets one item more.
- `HasLevels.insert_new`: a new key comes into its leaf, or into the two parts of it, if and only
  if the split fits; otherwise the call goes outside of an array.

## Proof strategy

A tree has at most 64 levels above its leaves, as every level has twice the nodes of the next one
and the keys are 64-bit words. So no loop over the levels reaches its limit.
-/

namespace DBx1000.Btree

open Shift

variable {order : Nat} {s s' : IndexBtree} {key : Key} {leaves : Level} {up : List Level}

/-! ### The tree -/

/-- The bound of a leaf and its keys, as ranks. -/
def Cell.ranks (c : Cell) : List Nat := c.low :: c.keys.map keyRank

/-- The heap has a tree with these leaves and these levels above. -/
structure HasLevels (order : Nat) (s : IndexBtree) (leaves : Level) (up : List Level) : Prop where
  above : Above order s (leaves.map Cell.bound) up
  holds : ∀ c ∈ leaves, c.Holds order s true
  keyed : up ≠ [] → ∀ c ∈ leaves, c.keys ≠ []
  linked : Linked (fun a => (s.node a).next) (leaves.map Cell.addr)
  sorted : (leaves.flatMap Cell.ranks).Pairwise (· < ·)
  nodup : (leaves.map Cell.addr ++ addrs up).Nodup
  known : ∀ a ∈ leaves.map Cell.addr ++ addrs up, a ≠ null ∧ a < s.fresh
  words : ∀ c ∈ leaves, ∀ k ∈ c.keys, k < 2 ^ 64

theorem lows_sublist (leaves : Level) : (leaves.map Cell.low).Sublist (leaves.flatMap Cell.ranks) := by
  induction leaves with
  | nil => exact .refl _
  | cons c leaves ih =>
    rw [List.map_cons, List.flatMap_cons, Cell.ranks, List.cons_append]
    exact (ih.trans (List.sublist_append_right ..)).cons_cons _

theorem keys_sublist (leaves : Level) :
    ((leaves.flatMap Cell.keys).map keyRank).Sublist (leaves.flatMap Cell.ranks) := by
  induction leaves with
  | nil => exact .refl _
  | cons c leaves ih =>
    rw [List.flatMap_cons, List.flatMap_cons, List.map_append]
    exact (List.sublist_cons_self ..).append ih

namespace HasLevels

variable (h : HasLevels order s leaves up)

include h

theorem sortedKeys : (leaves.flatMap Cell.keys).Pairwise (· < ·) := by
  have ranks := h.sorted.sublist (keys_sublist leaves)
  exact (List.pairwise_map.mp ranks).imp keyRank_lt.mp

end HasLevels

/-! ### The height -/

/-- Each level has at least twice as many nodes as the one above. -/
theorem Above.width {below : List (Nat × Ptr)} (above : Above order s below up) :
    2 ^ up.length ≤ below.length := by
  -- a cell with a key has two children, so each level has half the cells of the one below
  induction up generalizing below with
  | nil =>
    obtain ⟨a, rfl, -, -⟩ := above
    exact Nat.le_refl 1
  | cons level up ih =>
    obtain ⟨split, holds, -, above⟩ := above
    have wide := ih above
    rw [List.length_map] at wide
    have double : ∀ l : Level, (∀ c ∈ l, c ∈ level) →
        2 * l.length ≤ (l.flatMap Cell.kids).length := by
      intro l sub
      induction l with
      | nil => exact Nat.zero_le _
      | cons c l ih =>
        obtain ⟨cell, keyed, -⟩ := holds c (sub c List.mem_cons_self)
        have some := List.length_pos_of_ne_nil keyed
        have kids : c.kids.length = c.keys.length + 1 := by
          rw [Cell.kids, List.length_zip, cell.length_pointers, Nat.min_self, Cell.length_lows]
        have rest := ih fun d hd => sub d (List.mem_cons_of_mem _ hd)
        rw [List.flatMap_cons, List.length_append, List.length_cons]
        omega
    rw [split, List.length_cons, Nat.pow_succ]
    have := double level fun _ => id
    omega

theorem HasLevels.height (h : HasLevels order s leaves up) : up.length ≤ 64 := by
  by_cases top : up = []
  · rw [top]
    exact Nat.zero_le _
  have wide := h.above.width
  rw [List.length_map] at wide
  -- every leaf has a key
  have leaf : leaves.length ≤ (leaves.flatMap Cell.keys).length := by
    have keyed := h.keyed top
    clear wide h
    induction leaves with
    | nil => exact Nat.zero_le _
    | cons c leaves ih =>
      have some := List.length_pos_of_ne_nil (keyed c List.mem_cons_self)
      have rest := ih fun d hd => keyed d (List.mem_cons_of_mem _ hd)
      rw [List.flatMap_cons, List.length_append, List.length_cons]
      omega
  -- and there are at most as many keys as words
  have words : (leaves.flatMap Cell.keys).length ≤ 2 ^ 64 := by
    have nodup : (leaves.flatMap Cell.keys).Nodup := h.sortedKeys.imp Nat.ne_of_lt
    have sub : leaves.flatMap Cell.keys ⊆ List.range (2 ^ 64) := by
      intro k hk
      obtain ⟨c, hc, mem⟩ := List.mem_flatMap.mp hk
      exact List.mem_range.mpr (h.words c hc k mem)
    exact Nat.le_trans (nodup.subperm sub).length_le (Nat.le_of_eq List.length_range)
  exact (Nat.pow_le_pow_iff_right (Nat.lt_succ_self 1)).mp
    (Nat.le_trans wide (Nat.le_trans leaf words))

/-! ### The leaf for a key -/

/-- The leaf that has the key if any has it; a search that stays in the partition finds it. -/
structure LeafAt (order : Nat) (s : IndexBtree) (leaves : Level) (key : Key) (l₁ l₂ : Level)
    (c : Cell) : Prop where
  leaves : leaves = l₁ ++ c :: l₂
  low : c.low < keyRank key
  behind : ∀ r ∈ l₂.flatMap Cell.ranks, keyRank key < r
  find : InPartition s key → ∀ acc, ∃ lastEx, s.findLeaf order key acc = some (c.addr, lastEx) ∧
    (lastEx ≠ null → s.exList lastEx exListSize c.addr = some ())
  lost : ¬ InPartition s key → ∀ acc, s.findLeaf order key acc = none

theorem HasLevels.leafAt (h : HasLevels order s leaves up) (pos : 0 < order) (key : Key) :
    ∃ l₁ l₂ c, LeafAt order s leaves key l₁ l₂ c := by
  have height := h.height
  have below : ((leaves.map Cell.bound).map Prod.fst).Pairwise (· < ·) := by
    rw [List.map_map]
    exact h.sorted.sublist (lows_sublist leaves)
  have known (a : Ptr) (ha : a ∈ (leaves.map Cell.bound).map Prod.snd ++ addrs up) : a ≠ null := by
    rw [List.map_map] at ha
    exact (h.known a ha).1
  -- the search ends at the last leaf whose bound is below the key
  obtain ⟨front, lo, a, back, inner, bounds, low, large, way, runs⟩ :=
    h.above.search pos below known (by unfold exListSize; omega) key
  obtain ⟨l₁, rest, rfl, -, rest_eq⟩ := List.map_eq_append_iff.mp bounds
  obtain ⟨c, l₂, rfl, same, rfl⟩ := List.map_eq_cons_iff.mp rest_eq
  obtain ⟨rfl, rfl⟩ := Prod.mk.inj same
  -- the rounds that the search has left at the leaf
  obtain ⟨m, rounds⟩ : ∃ m, exListSize = m + 1 + up.length :=
    ⟨exListSize - 1 - up.length, by unfold exListSize; omega⟩
  have isLeaf := (h.holds c (by simp)).isLeaf
  -- the nodes the partition is asked of are the inner nodes of the way
  have part : InPartition s key ↔ ∀ x ∈ inner, s.inPart x = true := by
    unfold InPartition
    rw [rounds, way, innerFrom_leaf isLeaf, List.append_nil]
  refine ⟨l₁, l₂, c, rfl, low, fun r hr => ?_, fun inside acc => ?_, fun outside acc => ?_⟩
  · -- what lies in a leaf behind is greater than its bound
    obtain ⟨d, hd, mem⟩ := List.mem_flatMap.mp hr
    have first := large d.bound (List.mem_map_of_mem hd)
    rcases List.mem_cons.mp mem with rfl | behind
    · exact first
    · have ranks := (List.pairwise_flatMap.mp h.sorted).1 d (by simp [hd])
      exact Nat.lt_trans first ((List.pairwise_cons.mp ranks).1 _ behind)
  · obtain ⟨lastEx, run, walk⟩ := (runs acc (m + 1)).1 (part.mp inside)
    refine ⟨lastEx, ?_, fun held => ?_⟩
    · rw [IndexBtree.findLeaf, rounds, run, IndexBtree.findLeafFrom, isLeaf]
      rfl
    · -- the latches of the way are fewer than the array of the search has places
      exact exList_of_cleanup (cleanup_le (show up.length ≤ 99 by omega) (walk held))
  · rw [IndexBtree.findLeaf, rounds]
    exact (runs acc (m + 1)).2 fun all => outside (part.mpr all)

section Leaf

variable {l₁ l₂ : Level} {c : Cell}

/-- A key of the tree is one of this leaf if it is the one that is looked for. -/
theorem LeafAt.mem_keys (p : LeafAt order s leaves key l₁ l₂ c)
    (sorted : (leaves.flatMap Cell.ranks).Pairwise (· < ·)) :
    key ∈ leaves.flatMap Cell.keys ↔ key ∈ c.keys := by
  constructor
  · intro mem
    obtain ⟨d, hd, inside⟩ := List.mem_flatMap.mp mem
    have rank (d : Cell) (inside : key ∈ d.keys) : keyRank key ∈ d.ranks :=
      List.mem_cons_of_mem _ (List.mem_map_of_mem inside)
    rw [p.leaves] at hd sorted
    rcases List.mem_append.mp hd with front | hd
    · rw [List.flatMap_append, List.flatMap_cons] at sorted
      have lt := (List.pairwise_append.mp sorted).2.2 _ (List.mem_flatMap.mpr ⟨d, front, rank d inside⟩)
        c.low (List.mem_append_left _ List.mem_cons_self)
      exact absurd p.low (Nat.lt_asymm lt)
    · rcases List.mem_cons.mp hd with rfl | back
      · exact inside
      · exact absurd (p.behind _ (List.mem_flatMap.mpr ⟨d, back, rank d inside⟩)) (Nat.lt_irrefl _)
  · intro mem
    rw [p.leaves]
    exact List.mem_flatMap.mpr ⟨c, by simp, mem⟩

/-- A leaf is changed in its arrays only. -/
theorem HasLevels.replace (h : HasLevels order s (l₁ ++ c :: l₂) up) {n : BtNode} {c' : Cell}
    (addr : c'.addr = c.addr) (low : c'.low = c.low) (root : s'.root = s.root)
    (fresh : s'.fresh = s.fresh) (node : s'.node = Function.update s.node c.addr n)
    (parent : n.parent = (s.node c.addr).parent) (next : n.next = (s.node c.addr).next)
    (holds : c'.Holds order s' true) (keyed : c'.keys ≠ [])
    (words : ∀ k ∈ c'.keys, k < 2 ^ 64)
    (sorted : ((l₁ ++ c' :: l₂).flatMap Cell.ranks).Pairwise (· < ·)) :
    HasLevels order s' (l₁ ++ c' :: l₂) up := by
  have addrs_eq : (l₁ ++ c' :: l₂).map Cell.addr = (l₁ ++ c :: l₂).map Cell.addr := by
    simp [addr]
  have bounds_eq : (l₁ ++ c' :: l₂).map Cell.bound = (l₁ ++ c :: l₂).map Cell.bound := by
    simp [Cell.bound, addr, low]
  have self : s'.node c.addr = n := by rw [node, Function.update_self]
  have others (a : Ptr) (ne : a ≠ c.addr) : s'.node a = s.node a := by
    rw [node, Function.update_of_ne ne]
  -- the leaf stands once in the list and not above
  have unique : (∀ d ∈ l₁ ++ l₂, d.addr ≠ c.addr) ∧ ∀ a ∈ addrs up, a ≠ c.addr := by
    have nodup := h.nodup
    rw [List.map_append, List.map_cons, List.append_assoc, List.cons_append,
      List.perm_middle.nodup_iff, List.nodup_cons] at nodup
    refine ⟨fun d hd e => nodup.1 ?_, fun a ha e => nodup.1 ?_⟩
    · rw [← e]
      have mem : d.addr ∈ (l₁ ++ l₂).map Cell.addr := List.mem_map_of_mem hd
      rw [List.map_append] at mem
      rw [← List.append_assoc]
      exact List.mem_append_left _ mem
    · rw [← e]
      exact List.mem_append_right _ (List.mem_append_right _ ha)
  constructor
  -- the nodes above see the address and the bound of a leaf alone
  case above =>
    rw [bounds_eq]
    refine h.above.frame root (fun a ha => others a (unique.2 a ha)) fun e _ => ?_
    by_cases here : e.2 = c.addr
    · rw [here, self, parent]
    · rw [others _ here]
  case holds =>
    intro d hd
    by_cases here : d = c'
    · exact here ▸ holds
    · have beside : d ∈ l₁ ++ l₂ := by
        simp only [List.mem_append, List.mem_cons, here, false_or] at hd ⊢
        exact hd
      refine (h.holds d ?_).kept (.of_eq (others _ (unique.1 d beside)))
      simp only [List.mem_append, List.mem_cons] at beside ⊢
      tauto
  case keyed =>
    intro top d hd
    rcases List.mem_append.mp hd with front | hd
    · exact h.keyed top d (by simp [front])
    · rcases List.mem_cons.mp hd with rfl | back
      · exact keyed
      · exact h.keyed top d (by simp [back])
  case linked =>
    rw [addrs_eq]
    refine h.linked.congr fun a _ => ?_
    by_cases here : a = c.addr
    · rw [here, self, next]
    · rw [others a here]
  case sorted => exact sorted
  case nodup => exact addrs_eq ▸ h.nodup
  case known =>
    rw [addrs_eq, fresh]
    exact h.known
  case words =>
    intro d hd
    rcases List.mem_append.mp hd with front | hd
    · exact h.words d (by simp [front])
    · rcases List.mem_cons.mp hd with rfl | back
      · exact words
      · exact h.words d (by simp [back])

/-! ### A key that the leaf has -/

/-- `item->next = next`. -/
def setItemNext (s : IndexBtree) (item next : Ptr) : IndexBtree :=
  { s with itemNext := Function.update s.itemNext item next }

/-- The new item stands in front of the chain of its key. -/
theorem Cell.Holds.insertIntoLeaf_mem (h : c.Holds order s true) (mem : key ∈ c.keys) (item : Ptr) :
    ∃ n, s.insertIntoLeaf order c.addr key item = some
        ((setItemNext s item ((s.node c.addr).pointers (c.keys.idxOf key))).setNode c.addr n) ∧
      n.parent = (s.node c.addr).parent ∧ n.next = (s.node c.addr).next ∧
      ∀ t : IndexBtree, t.node c.addr = n →
        ({ c with pointers := c.pointers.set (c.keys.idxOf key) item } : Cell).Holds order t true := by
  have lt : c.keys.idxOf key < c.keys.length := List.idxOf_lt_length_of_mem mem
  have few := h.few
  have has : (s.node c.addr).leafHasKey order key = some (some (c.keys.idxOf key)) := by
    rw [leafHasKey_eq key (h.numKeys ▸ h.few), h.numKeys, h.keys, if_pos mem]
  unfold IndexBtree.insertIntoLeaf
  simp only [has, Option.bind_eq_bind, Option.bind_some]
  rw [loadPointer_of_lt (by omega)]
  simp only [Option.bind_some]
  rw [storePointer_of_lt _ (by omega)]
  refine ⟨_, rfl, rfl, rfl, fun t node => ?_⟩
  refine Cell.holds_of node h.isLeaf h.numKeys (h.numKeys ▸ h.keys) ?_ ?_ h.few
  · refine cells_eq_iff.mpr ⟨rfl, fun j lt => ?_⟩
    rw [List.length_set] at lt
    rw [List.getElem?_set, h.pointer_at lt]
    simp only [Function.update_apply]
    grind
  · rw [List.length_set]
    exact h.arity

/-! ### A leaf with room -/

/-- The leaf with a new key at its place. -/
def Cell.insertLeaf (c : Cell) (key : Key) (item : Ptr) : Cell :=
  { c with
    keys := c.keys.insertIdx (place c.keys key) key
    pointers := c.pointers.insertIdx (place c.keys key) item }

theorem Cell.length_insertLeaf (c : Cell) (key : Key) (item : Ptr) :
    (c.insertLeaf key item).keys.length = c.keys.length + 1 :=
  List.length_insertIdx_of_le_length (place_le ..) _

theorem Cell.mem_insertLeaf {c : Cell} {item : Ptr} {k : Key} :
    k ∈ (c.insertLeaf key item).keys ↔ k = key ∨ k ∈ c.keys :=
  List.mem_insertIdx (place_le ..)

theorem Cell.Holds.insertIntoLeaf_new (h : c.Holds order s true) (new : key ∉ c.keys)
    (room : c.keys.length < order - 1) (item : Ptr) :
    ∃ n, s.insertIntoLeaf order c.addr key item = some (s.setNode c.addr n) ∧
      n.parent = (s.node c.addr).parent ∧ n.next = (s.node c.addr).next ∧
      ∀ t : IndexBtree, t.node c.addr = n → (c.insertLeaf key item).Holds order t true := by
  have le := place_le c.keys key
  have numKeys := h.numKeys
  have arity : c.pointers.length = c.keys.length := h.arity
  have has : (s.node c.addr).leafHasKey order key = some none := by
    rw [leafHasKey_eq key (h.numKeys ▸ h.few), h.numKeys, h.keys, if_neg new]
  have point : (s.node c.addr).scan order (fun k => ¬ k < key) (s.node c.addr).numKeys 0 =
      some (place c.keys key) := by
    rw [scan_zero_eq _ (h.numKeys ▸ h.few), h.numKeys, h.keys]
    rfl
  unfold IndexBtree.insertIntoLeaf
  simp only [has, point, Option.bind_eq_bind, Option.bind_some]
  -- the entries behind the place move up by one
  rw [numKeys, shiftUp_eq room]
  simp only [Option.bind_some]
  rw [storeKey_of_lt _ (by omega)]
  simp only [Option.bind_some]
  rw [storePointer_of_lt _ (by omega)]
  simp only [Option.bind_some]
  rw [if_pos (show (s.node c.addr).numKeys + 1 < order by omega)]
  refine ⟨_, rfl, rfl, rfl, fun t node => ?_⟩
  have lengthPointers : (c.insertLeaf key item).pointers.length = c.keys.length + 1 := by
    change (c.pointers.insertIdx _ _).length = _
    rw [List.length_insertIdx_of_le_length (by omega), arity]
  have length := c.length_insertLeaf key item
  refine Cell.holds_of node h.isLeaf ?_ ?_ ?_ ?_ (by omega)
  · rw [length, ← numKeys]
  · have keys := cells_insert (s.node c.addr).keys le key
    rw [h.keys] at keys
    change cells _ ((s.node c.addr).numKeys + 1) = _
    rw [numKeys]
    exact keys
  · rw [lengthPointers]
    have array : cells (s.node c.addr).pointers c.keys.length = c.pointers := arity ▸ h.pointers
    have pointers := cells_insert (s.node c.addr).pointers le item
    rw [array] at pointers
    exact pointers
  · rw [length, lengthPointers]
    rfl

/-- The ranks stay in order if those of one leaf do and are within its bounds. -/
theorem LeafAt.sorted_of (p : LeafAt order s leaves key l₁ l₂ c)
    (sorted : (leaves.flatMap Cell.ranks).Pairwise (· < ·)) {new : Level}
    (mine : (new.flatMap Cell.ranks).Pairwise (· < ·))
    (within : ∀ r ∈ new.flatMap Cell.ranks, c.low ≤ r ∧
      ((∃ r' ∈ c.ranks, r ≤ r') ∨ r ≤ keyRank key)) :
    ((l₁ ++ new ++ l₂).flatMap Cell.ranks).Pairwise (· < ·) := by
  rw [p.leaves, List.flatMap_append, List.flatMap_cons] at sorted
  obtain ⟨front, rest, before⟩ := List.pairwise_append.mp sorted
  obtain ⟨-, back, behind⟩ := List.pairwise_append.mp rest
  rw [List.flatMap_append, List.flatMap_append]
  refine List.pairwise_append.mpr ⟨List.pairwise_append.mpr ⟨front, mine, ?_⟩, back, ?_⟩
  · intro a ha r hr
    have low := before a ha c.low (List.mem_append_left _ List.mem_cons_self)
    exact Nat.lt_of_lt_of_le low (within r hr).1
  · intro r hr b hb
    rcases List.mem_append.mp hr with inFront | inNew
    · exact before r inFront b (List.mem_append_right _ hb)
    · rcases (within r inNew).2 with ⟨r', hr', le⟩ | le
      · exact Nat.lt_of_le_of_lt le (behind r' hr' b hb)
      · exact Nat.lt_of_le_of_lt le (p.behind b hb)

/-- The ranks of a leaf with a new key. -/
theorem LeafAt.ranks_insertLeaf (p : LeafAt order s leaves key l₁ l₂ c)
    (sorted : (leaves.flatMap Cell.ranks).Pairwise (· < ·)) (new : key ∉ c.keys) (item : Ptr) :
    (c.insertLeaf key item).ranks.Pairwise (· < ·) ∧
      ∀ r ∈ (c.insertLeaf key item).ranks,
        c.low ≤ r ∧ ((∃ r' ∈ c.ranks, r ≤ r') ∨ r ≤ keyRank key) := by
  have ranks : c.ranks.Pairwise (· < ·) :=
    (List.pairwise_flatMap.mp sorted).1 c (by rw [p.leaves]; simp)
  obtain ⟨lower, keys⟩ := List.pairwise_cons.mp ranks
  have keys : c.keys.Pairwise (· < ·) := (List.pairwise_map.mp keys).imp keyRank_lt.mp
  -- the new key is above the bound of the leaf, for the search has come here
  have low (k : Key) (hk : k ∈ (c.insertLeaf key item).keys) : c.low < keyRank k := by
    rcases Cell.mem_insertLeaf.mp hk with rfl | old
    · exact p.low
    · exact lower _ (List.mem_map_of_mem old)
  constructor
  · refine List.pairwise_cons.mpr ⟨fun r hr => ?_, ?_⟩
    · obtain ⟨k, hk, rfl⟩ := List.mem_map.mp hr
      exact low k hk
    · exact List.pairwise_map.mpr ((sorted_place keys new).imp keyRank_lt.mpr)
  · intro r hr
    rcases List.mem_cons.mp hr with rfl | hr
    · exact ⟨Nat.le_refl _, .inl ⟨c.low, List.mem_cons_self, Nat.le_refl _⟩⟩
    · obtain ⟨k, hk, rfl⟩ := List.mem_map.mp hr
      refine ⟨Nat.le_of_lt (low k hk), ?_⟩
      rcases Cell.mem_insertLeaf.mp hk with rfl | old
      · exact .inr (Nat.le_refl _)
      · exact .inl ⟨_, List.mem_cons_of_mem _ (List.mem_map_of_mem old), Nat.le_refl _⟩

/-! ### A full leaf -/

/-- The first part of a leaf. -/
def Cell.leafLeft (c : Cell) (split : Nat) : Cell :=
  { c with keys := c.keys.take split, pointers := c.pointers.take split }

/-- The ranks of the two parts of a leaf are those of the leaf, with the bound of the second one
between them. -/
theorem Cell.ranks_parts {d : Cell} {split : Nat} {newKey : Key} {a : Ptr} (pos : 0 < split)
    (head : (d.keys.drop split).head? = some newKey) (sorted : d.ranks.Pairwise (· < ·)) :
    ([d.leafLeft split, d.rightPart split newKey a].flatMap Cell.ranks).Pairwise (· < ·) ∧
      ∀ r ∈ [d.leafLeft split, d.rightPart split newKey a].flatMap Cell.ranks,
        d.low ≤ r ∧ ∃ r' ∈ d.ranks, r ≤ r' := by
  obtain ⟨lower, keys⟩ := List.pairwise_cons.mp sorted
  obtain ⟨rest, drop⟩ : ∃ rest, d.keys.drop split = newKey :: rest := by
    cases e : d.keys.drop split with
    | nil =>
      rw [e] at head
      cases head
    | cons k rest =>
      rw [e] at head
      exact ⟨rest, by rw [Option.some.inj head]⟩
  have all : d.keys = d.keys.take split ++ newKey :: rest := by
    rw [← drop, List.take_append_drop]
  have mem (k : Key) (hk : k ∈ d.keys) : keyRank k ∈ d.ranks :=
    List.mem_cons_of_mem _ (List.mem_map_of_mem hk)
  have newMem : newKey ∈ d.keys := by
    rw [all]
    simp
  rw [all, List.map_append, List.map_cons] at keys
  obtain ⟨front, back, cross⟩ := List.pairwise_append.mp keys
  obtain ⟨first, back⟩ := List.pairwise_cons.mp back
  -- the bound of the second part is between the two
  have above (k : Key) (hk : k ∈ d.keys.take split) : keyRank k < sepRank newKey :=
    keyRank_lt_sepRank.mpr (keyRank_lt.mp (cross _ (List.mem_map_of_mem hk) _ List.mem_cons_self))
  have low : d.low < sepRank newKey := by
    cases taken : d.keys.take split with
    | nil =>
      have length := congrArg List.length taken
      rw [List.length_take, List.length_nil] at length
      have long := congrArg List.length all
      rw [taken, List.nil_append, List.length_cons] at long
      omega
    | cons k ks =>
      have hk : k ∈ d.keys.take split := by rw [taken]; exact List.mem_cons_self
      exact Nat.lt_trans (lower _ (List.mem_map_of_mem (List.mem_of_mem_take hk))) (above k hk)
  have second : sepRank newKey < keyRank newKey := sepRank_lt_keyRank.mpr (Nat.le_refl newKey)
  have parts : [d.leafLeft split, d.rightPart split newKey a].flatMap Cell.ranks =
      (d.low :: (d.keys.take split).map keyRank) ++
        (sepRank newKey :: keyRank newKey :: rest.map keyRank) := by
    rw [List.flatMap_cons, List.flatMap_cons, List.flatMap_nil, List.append_nil]
    simp only [Cell.ranks, Cell.leafLeft, Cell.rightPart, drop, List.map_cons]
  have smaller (r : Nat) (hr : r ∈ d.low :: (d.keys.take split).map keyRank) : r < sepRank newKey := by
    rcases List.mem_cons.mp hr with rfl | hr
    · exact low
    · obtain ⟨k, hk, rfl⟩ := List.mem_map.mp hr
      exact above k hk
  have larger (r : Nat) (hr : r ∈ sepRank newKey :: keyRank newKey :: rest.map keyRank) :
      sepRank newKey ≤ r := by
    rcases List.mem_cons.mp hr with rfl | hr
    · exact Nat.le_refl _
    · rcases List.mem_cons.mp hr with rfl | hr
      · exact Nat.le_of_lt second
      · exact Nat.le_of_lt (Nat.lt_trans second (first r hr))
  -- the two parts are sorted, and all of the first is below all of the second
  rw [parts]
  constructor
  · refine List.pairwise_append.mpr ⟨List.pairwise_cons.mpr ⟨fun r hr => ?_, front⟩,
      List.pairwise_cons.mpr ⟨fun r hr => ?_, List.pairwise_cons.mpr ⟨first, back⟩⟩,
      fun r hr r' hr' => Nat.lt_of_lt_of_le (smaller r hr) (larger r' hr')⟩
    · obtain ⟨k, hk, rfl⟩ := List.mem_map.mp hr
      exact lower _ (List.mem_map_of_mem (List.mem_of_mem_take hk))
    · rcases List.mem_cons.mp hr with rfl | hr
      · exact second
      · exact Nat.lt_trans second (first r hr)
  · intro r hr
    rcases List.mem_append.mp hr with hr | hr
    · rcases List.mem_cons.mp hr with rfl | hr
      · exact ⟨Nat.le_refl _, _, List.mem_cons_self, Nat.le_refl _⟩
      · obtain ⟨k, hk, rfl⟩ := List.mem_map.mp hr
        have hk := List.mem_of_mem_take hk
        exact ⟨Nat.le_of_lt (lower _ (List.mem_map_of_mem hk)), _, mem k hk, Nat.le_refl _⟩
    · refine ⟨Nat.le_trans (Nat.le_of_lt low) (larger r hr), ?_⟩
      rcases List.mem_cons.mp hr with rfl | hr
      · exact ⟨_, mem newKey newMem, Nat.le_of_lt second⟩
      · rw [← List.map_cons (f := keyRank)] at hr
        obtain ⟨k, hk, rfl⟩ := List.mem_map.mp hr
        refine ⟨_, mem k ?_, Nat.le_refl _⟩
        rw [all]
        exact List.mem_append_right _ hk

/-- The levels above have the nodes that they had, and the parents of the leaves are the same. -/
theorem HasLevels.unseen (h : HasLevels order s leaves up) (mine : c ∈ leaves) {ks : List Key}
    {ps : List Ptr} {newKey : Key} {s₁ : IndexBtree} (split : SplitLf order s s₁ c.addr ks ps newKey) :
    (∀ a ∈ addrs up, s₁.node a = s.node a) ∧
      ∀ e ∈ leaves.map Cell.bound, (s₁.node e.2).parent = (s.node e.2).parent := by
  have same (a : Ptr) (ha : a ∈ leaves.map Cell.addr ++ addrs up) (ne : a ≠ c.addr) :
      s₁.node a = s.node a := split.others a ne (Nat.ne_of_lt (h.known a ha).2)
  refine ⟨fun a ha => ?_, fun e he => ?_⟩
  · refine same a (List.mem_append_right _ ha) fun e => ?_
    exact (List.nodup_append.mp h.nodup).2.2 c.addr (List.mem_map_of_mem mine) a ha e.symm
  · obtain ⟨d, hd, rfl⟩ := List.mem_map.mp he
    by_cases here : d.addr = c.addr
    · rw [show d.bound.2 = c.addr from here, split.parent]
    · exact congrArg BtNode.parent
        (same d.addr (List.mem_append_left _ (List.mem_map_of_mem hd)) here)

/-- What the split of a full leaf leaves for `insert_into_parent`. -/
theorem HasLevels.waiting (h : HasLevels order s leaves up) (p : LeafAt order s leaves key l₁ l₂ c)
    {item newKey : Ptr} {s₁ : IndexBtree}
    (sorted : ((l₁ ++ [(c.insertLeaf key item).leafLeft (cut (order - 1)),
      (c.insertLeaf key item).rightPart (cut (order - 1)) newKey s.fresh] ++ l₂).flatMap
        Cell.ranks).Pairwise (· < ·))
    (split : SplitLf order s s₁ c.addr (c.insertLeaf key item).keys (c.insertLeaf key item).pointers
      newKey) :
    Waiting order s₁ (l₁.map Cell.bound) (l₂.map Cell.bound) c.low c.addr newKey s.fresh up := by
  have known := h.known
  have nodup := h.nodup
  have above := h.above
  obtain ⟨nodes, parents⟩ := h.unseen (by rw [p.leaves]; simp) split
  rw [p.leaves] at known nodup above parents
  have bounds : (l₁ ++ c :: l₂).map Cell.bound =
      l₁.map Cell.bound ++ (c.low, c.addr) :: l₂.map Cell.bound := by
    simp [Cell.bound]
  refine ⟨?_, ?_, nodup_withNew nodup fun a ha => (known a ha).2, split.fresh ▸ known_withNew known,
    split.parentRight.trans split.parent.symm, split.next⟩
  · -- the levels above have not seen the split yet
    rw [← bounds]
    exact above.frame split.root nodes parents
  · have fst : (withNew (l₁.map Cell.bound) (l₂.map Cell.bound) c.low c.addr newKey s.fresh).map
        Prod.fst = (l₁ ++ [(c.insertLeaf key item).leafLeft (cut (order - 1)),
          (c.insertLeaf key item).rightPart (cut (order - 1)) newKey s.fresh] ++ l₂).map Cell.low := by
      simp only [withNew, List.map_append, List.map_cons, List.map_map, List.append_assoc,
        List.cons_append, List.nil_append]
      rfl
    rw [fst]
    exact sorted.sublist (lows_sublist _)

theorem cut_leaf (three : 3 ≤ order) : 0 < cut (order - 1) ∧ cut (order - 1) ≤ order - 1 := by
  unfold cut
  split <;> omega

/-- The two parts in the heap that the split leaves. -/
theorem SplitLf.holds {ks : List Key} {ps : List Ptr} {newKey : Key} {a : Ptr}
    {s₁ : IndexBtree} (three : 3 ≤ order) (split : SplitLf order s s₁ a ks ps newKey) (low : Nat)
    (isLeaf : (s.node a).isLeaf = true) (keys : ks.length = order) (pointers : ps.length = order) :
    ((⟨a, low, ks, ps⟩ : Cell).leafLeft (cut (order - 1))).Holds order s₁ true ∧
      ((⟨a, low, ks, ps⟩ : Cell).rightPart (cut (order - 1)) newKey s.fresh).Holds order s₁ true := by
  obtain ⟨pos, le⟩ := cut_leaf three
  have left : (ks.take (cut (order - 1))).length = cut (order - 1) := by
    rw [List.length_take]
    omega
  have left' : (ps.take (cut (order - 1))).length = cut (order - 1) := by
    rw [List.length_take]
    omega
  have right : (ks.drop (cut (order - 1))).length = order - cut (order - 1) := by
    rw [List.length_drop, keys]
  have right' : (ps.drop (cut (order - 1))).length = order - cut (order - 1) := by
    rw [List.length_drop, pointers]
  constructor
  · refine Cell.holds_of rfl (split.isLeaf.trans isLeaf) (split.numKeys.trans left.symm) split.keys ?_
      (left'.trans left.symm) (Nat.le_trans (Nat.le_of_eq left) le)
    change cells _ (ps.take _).length = _
    rw [left', ← split.numKeys]
    exact split.pointers.trans (by rw [split.numKeys]; rfl)
  · refine Cell.holds_of rfl split.isLeafRight (split.numKeysRight.trans right.symm) split.keysRight ?_
      (right'.trans right.symm) (Nat.le_trans (Nat.le_of_eq right) (by omega))
    change cells _ (ps.drop _).length = _
    rw [right', ← split.numKeysRight]
    exact split.pointersRight

/-- The tree after the split of a leaf. -/
theorem HasLevels.ofSplit (three : 3 ≤ order) (h : HasLevels order s leaves up)
    (p : LeafAt order s leaves key l₁ l₂ c) (full : c.keys.length = order - 1) (word : key < 2 ^ 64)
    {item newKey : Ptr} {s₁ : IndexBtree} {up' : List Level}
    (sorted : ((l₁ ++ [(c.insertLeaf key item).leafLeft (cut (order - 1)),
      (c.insertLeaf key item).rightPart (cut (order - 1)) newKey s.fresh] ++ l₂).flatMap
        Cell.ranks).Pairwise (· < ·))
    (split : SplitLf order s s₁ c.addr (c.insertLeaf key item).keys (c.insertLeaf key item).pointers
      newKey)
    (placed : Placed order s₁ s' (withNew (l₁.map Cell.bound) (l₂.map Cell.bound) c.low c.addr newKey
      s.fresh) up up') :
    HasLevels order s' (l₁ ++ [(c.insertLeaf key item).leafLeft (cut (order - 1)),
      (c.insertLeaf key item).rightPart (cut (order - 1)) newKey s.fresh] ++ l₂) up' := by
  obtain ⟨pos, le⟩ := cut_leaf three
  have waiting := h.waiting p sorted split
  have mine : c ∈ leaves := by
    rw [p.leaves]
    simp
  have arity : c.pointers.length = c.keys.length := (h.holds c mine).arity
  have lengthKeys : (c.insertLeaf key item).keys.length = order := by
    rw [c.length_insertLeaf, full]
    omega
  have lengthPointers : (c.insertLeaf key item).pointers.length = order := by
    change (c.pointers.insertIdx _ _).length = _
    have := place_le c.keys key
    rw [List.length_insertIdx_of_le_length (by omega), arity, full]
    omega
  obtain ⟨left, right⟩ := split.holds three c.low (h.holds c mine).isLeaf lengthKeys
    lengthPointers
  have kept (a : Ptr) (ha : a ∈ l₁.map Cell.addr ++ c.addr :: s.fresh :: l₂.map Cell.addr) :
      Kept s₁ s' a := placed.kept a (snd_withNew ▸ ha)
  have level : (l₁ ++ [(c.insertLeaf key item).leafLeft (cut (order - 1)),
      (c.insertLeaf key item).rightPart (cut (order - 1)) newKey s.fresh] ++ l₂).map Cell.addr =
      l₁.map Cell.addr ++ c.addr :: s.fresh :: l₂.map Cell.addr := by
    simp only [List.map_append, List.map_cons, List.append_assoc, List.cons_append,
      List.nil_append]
    rfl
  -- the leaves beside the two parts
  have beside (d : Cell) (hd : d ∈ l₁ ++ l₂) : d ∈ leaves ∧ d.addr ≠ c.addr ∧
      d.addr ∈ l₁.map Cell.addr ++ c.addr :: s.fresh :: l₂.map Cell.addr := by
    have nodup := h.nodup
    rw [p.leaves, List.map_append, List.map_cons, List.append_assoc, List.cons_append,
      List.perm_middle.nodup_iff, List.nodup_cons] at nodup
    rw [p.leaves]
    refine ⟨?_, fun e => nodup.1 ?_, ?_⟩
    · simp only [List.mem_append, List.mem_cons] at hd ⊢
      tauto
    · have mem : d.addr ∈ (l₁ ++ l₂).map Cell.addr := List.mem_map_of_mem hd
      rw [List.map_append] at mem
      rw [← e, ← List.append_assoc]
      exact List.mem_append_left _ mem
    · have mem : d.addr ∈ (l₁ ++ l₂).map Cell.addr := List.mem_map_of_mem hd
      simp only [List.map_append, List.mem_append, List.mem_cons] at mem ⊢
      tauto
  have others (d : Cell) (hd : d ∈ l₁ ++ l₂) : s₁.node d.addr = s.node d.addr := by
    obtain ⟨mem, ne, -⟩ := beside d hd
    have old := (h.known d.addr (List.mem_append_left _ (List.mem_map_of_mem mem))).2
    exact split.others _ ne (Nat.ne_of_lt old)
  -- a property of the parts and of the leaves beside them
  have cases_of {P : Cell → Prop} (hl : P ((c.insertLeaf key item).leafLeft (cut (order - 1))))
      (hr : P ((c.insertLeaf key item).rightPart (cut (order - 1)) newKey s.fresh))
      (hb : ∀ d ∈ l₁ ++ l₂, P d) : ∀ d ∈ l₁ ++ [(c.insertLeaf key item).leafLeft (cut (order - 1)),
        (c.insertLeaf key item).rightPart (cut (order - 1)) newKey s.fresh] ++ l₂, P d := by
    intro d hd
    rcases List.mem_append.mp hd with hd | hd
    · rcases List.mem_append.mp hd with hd | hd
      · exact hb d (List.mem_append_left _ hd)
      · rcases List.mem_cons.mp hd with rfl | hd
        · exact hl
        · obtain rfl := List.mem_singleton.mp hd
          exact hr
    · exact hb d (List.mem_append_right _ hd)
  constructor
  case above =>
    have bounds : (l₁ ++ [(c.insertLeaf key item).leafLeft (cut (order - 1)),
        (c.insertLeaf key item).rightPart (cut (order - 1)) newKey s.fresh] ++ l₂).map Cell.bound =
        withNew (l₁.map Cell.bound) (l₂.map Cell.bound) c.low c.addr newKey s.fresh := by
      simp only [withNew, List.map_append, List.map_cons, List.append_assoc, List.cons_append,
        List.nil_append]
      rfl
    exact bounds ▸ placed.above
  case holds =>
    refine cases_of (left.kept (kept _ (by simp [Cell.leafLeft, Cell.insertLeaf])))
      (right.kept (kept _ (by simp [Cell.rightPart]))) fun d hd => ?_
    obtain ⟨mem, -, here⟩ := beside d hd
    exact (h.holds d mem).kept ((Kept.of_eq (others d hd)).trans (kept _ here))
  case keyed =>
    intro _
    refine cases_of (fun none => ?_) (fun none => ?_) fun d hd => ?_
    · have length := congrArg List.length none
      rw [show ((c.insertLeaf key item).leafLeft (cut (order - 1))).keys =
        (c.insertLeaf key item).keys.take (cut (order - 1)) from rfl, List.length_take, lengthKeys,
        List.length_nil] at length
      omega
    · have length := congrArg List.length none
      rw [show ((c.insertLeaf key item).rightPart (cut (order - 1)) newKey s.fresh).keys =
        (c.insertLeaf key item).keys.drop (cut (order - 1)) from rfl, List.length_drop, lengthKeys,
        List.length_nil] at length
      omega
    · obtain ⟨mem, ne, -⟩ := beside d hd
      refine h.keyed (fun top => ?_) d mem
      -- a root that is a leaf has nothing beside it
      have above := h.above
      rw [top] at above
      obtain ⟨a, alone, -, -⟩ := above
      have single (x : Cell) (hx : x ∈ leaves) : x.addr = a := by
        have bound : x.bound ∈ leaves.map Cell.bound := List.mem_map_of_mem hx
        rw [alone] at bound
        exact congrArg Prod.snd (List.mem_singleton.mp bound)
      exact ne ((single d mem).trans (single c mine).symm)
  -- the new leaf is linked behind the one that has been split
  case linked =>
    rw [level]
    have linked := h.linked
    rw [p.leaves, List.map_append, List.map_cons] at linked
    refine linked.split ?_ ?_ ?_ fun x hx => ?_
    · exact snd_withNew ▸ (List.nodup_append.mp waiting.nodup).1
    · exact (kept c.addr (by simp)).next.trans split.next
    · exact (kept s.fresh (by simp)).next.trans split.nextRight
    · rw [← List.map_append] at hx
      obtain ⟨d, hd, rfl⟩ := List.mem_map.mp hx
      rw [(kept d.addr (beside d hd).2.2).next, others d hd]
  case sorted => exact sorted
  case nodup =>
    rw [level]
    exact snd_withNew ▸ waiting.nodup_placed placed
  case known =>
    rw [level]
    exact snd_withNew ▸ waiting.known_placed placed
  case words =>
    have both (k : Key) (hk : k ∈ (c.insertLeaf key item).keys) : k < 2 ^ 64 := by
      rcases Cell.mem_insertLeaf.mp hk with rfl | old
      · exact word
      · exact h.words c mine k old
    exact cases_of (fun k hk => both k (List.mem_of_mem_take hk))
      (fun k hk => both k (List.mem_of_mem_drop hk)) fun d hd => h.words d (beside d hd).1

/-! ### One call -/

/-- The keys of a leaf with their slots. -/
def Cell.entries (c : Cell) : List (Key × Ptr) := c.keys.zip c.pointers

/-- The split that a call makes, if it makes one, fits into the parents. -/
def InsertFits (order : Nat) (s : IndexBtree) (key : Key) : Prop :=
  ∀ leaf lastEx, s.findLeaf order key .INDEX_INSERT = some (leaf, lastEx) →
    (s.node leaf).numKeys = order - 1 → key ∉ s.keysOf leaf →
    ∀ newKey ∈ (((s.keysOf leaf).insertIdx (place (s.keysOf leaf) key) key).drop
      (cut (order - 1))).head?, ParentFits order s exListSize leaf newKey

instance (order : Nat) (s : IndexBtree) (key : Key) : Decidable (InsertFits order s key) :=
  decidable_of_iff (∀ found ∈ s.findLeaf order key .INDEX_INSERT,
      (s.node found.1).numKeys = order - 1 → key ∉ s.keysOf found.1 →
      ∀ newKey ∈ (((s.keysOf found.1).insertIdx (place (s.keysOf found.1) key) key).drop
        (cut (order - 1))).head?, ParentFits order s exListSize found.1 newKey)
    ⟨fun fits leaf lastEx find => fits (leaf, lastEx) find, fun fits found => fits found.1 found.2⟩

theorem LeafAt.insertFits_iff (p : LeafAt order s leaves key l₁ l₂ c) (holds : c.Holds order s true)
    (inPart : InPartition s key) : InsertFits order s key ↔ (c.keys.length = order - 1 → key ∉ c.keys →
      ∀ newKey ∈ ((c.keys.insertIdx (place c.keys key) key).drop (cut (order - 1))).head?,
        ParentFits order s exListSize c.addr newKey) := by
  obtain ⟨lastEx, find, -⟩ := p.find inPart .INDEX_INSERT
  unfold InsertFits
  constructor
  · intro fits
    have fits := fits c.addr lastEx find
    rw [holds.numKeys, holds.keysOf] at fits
    exact fits
  · intro fits leaf lastEx' find'
    obtain ⟨rfl, -⟩ := Prod.mk.inj (Option.some.inj (find.symm.trans find'))
    rw [holds.numKeys, holds.keysOf]
    exact fits

/-- The call works on the leaf for the key. -/
theorem LeafAt.indexInsert_eq (p : LeafAt order s leaves key l₁ l₂ c) (holds : c.Holds order s true)
    (inPart : InPartition s key) (item : Ptr) : s.indexInsert order key item =
      if c.keys.length < order - 1 ∨ key ∈ c.keys then s.insertIntoLeaf order c.addr key item
      else s.splitLfInsert order c.addr key item := by
  obtain ⟨lastEx, find, walk⟩ := p.find inPart .INDEX_INSERT
  have has := leafHasKey_eq key (holds.numKeys ▸ holds.few : (s.node c.addr).numKeys ≤ order - 1)
  rw [holds.numKeys, holds.keys] at has
  unfold IndexBtree.indexInsert
  simp only [find, Option.bind_eq_bind, Option.bind_some, holds.numKeys, has]
  by_cases held : lastEx = null
  · simp only [held, ne_eq, not_true_eq_false, if_false]
    by_cases room : c.keys.length < order - 1
    · simp [room]
    · by_cases mem : key ∈ c.keys <;> simp [room, mem]
  · simp only [ne_eq, held, not_false_eq_true, if_true, walk held, Option.bind_some]
    by_cases room : c.keys.length < order - 1
    · simp [room]
    · by_cases mem : key ∈ c.keys <;> simp [room, mem]

theorem LeafAt.indexInsert_none (p : LeafAt order s leaves key l₁ l₂ c)
    (out : ¬ InPartition s key) (item : Ptr) : s.indexInsert order key item = none := by
  unfold IndexBtree.indexInsert
  rw [p.lost out]
  rfl

/-- A key that is there gets one item more. -/
theorem HasLevels.insert_mem (h : HasLevels order s leaves up)
    (p : LeafAt order s leaves key l₁ l₂ c) (inPart : InPartition s key) (mem : key ∈ c.keys)
    (item : Ptr) :
    ∃ s' old, s.indexInsert order key item = some s' ∧ (key, old) ∈ c.entries ∧
      s'.itemNext = Function.update s.itemNext item old ∧
      HasLevels order s'
        (l₁ ++ { c with pointers := c.pointers.set (c.keys.idxOf key) item } :: l₂) up := by
  have mine : c ∈ leaves := by
    rw [p.leaves]
    simp
  have holds := h.holds c mine
  obtain ⟨n, run, parent, next, new⟩ := holds.insertIntoLeaf_mem mem item
  have lt : c.keys.idxOf key < c.keys.length := List.idxOf_lt_length_of_mem mem
  have arity : c.pointers.length = c.keys.length := holds.arity
  refine ⟨_, _, (p.indexInsert_eq holds inPart item).trans ((if_pos (.inr mem)).trans run), ?_, rfl,
    ?_⟩
  · -- the item that is found is the one the new item is put before
    refine List.mem_iff_getElem?.mpr ⟨c.keys.idxOf key, ?_⟩
    rw [Cell.entries, List.getElem?_zip_eq_some]
    exact ⟨List.getElem?_idxOf mem, holds.pointer_at (by omega)⟩
  · refine (p.leaves ▸ h).replace rfl rfl rfl rfl rfl parent next (new _ (Function.update_self ..))
      (List.ne_nil_of_mem mem) (h.words c mine) ?_
    -- the ranks are as before
    have sorted := h.sorted
    rw [p.leaves, List.flatMap_append, List.flatMap_cons] at sorted
    rw [List.flatMap_append, List.flatMap_cons]
    exact sorted

theorem Cell.entries_parts (d : Cell) (split : Nat) (newKey : Key) (a : Ptr) :
    [d.leafLeft split, d.rightPart split newKey a].flatMap Cell.entries = d.entries := by
  simp only [Cell.entries, Cell.leafLeft, Cell.rightPart, List.flatMap_cons, List.flatMap_nil,
    List.append_nil]
  rw [List.zip_eq_zipWith, List.zip_eq_zipWith, ← List.take_zipWith, ← List.drop_zipWith,
    List.take_append_drop, List.zip_eq_zipWith]

theorem Cell.keys_parts (d : Cell) (split : Nat) (newKey : Key) (a : Ptr) :
    [d.leafLeft split, d.rightPart split newKey a].flatMap Cell.keys = d.keys := by
  simp only [Cell.leafLeft, Cell.rightPart, List.flatMap_cons, List.flatMap_nil, List.append_nil]
  exact List.take_append_drop ..

/-- A new key comes into the leaf, or into its two parts if the split fits. -/
theorem HasLevels.insert_new (three : 3 ≤ order) (limit : order ≤ 2 ^ 32)
    (h : HasLevels order s leaves up) (p : LeafAt order s leaves key l₁ l₂ c)
    (inPart : InPartition s key) (word : key < 2 ^ 64) (new : key ∉ c.keys) (item : Ptr) :
    (InsertFits order s key → ∃ s' parts up', s.indexInsert order key item = some s' ∧
      s'.itemNext = s.itemNext ∧ HasLevels order s' (l₁ ++ parts ++ l₂) up' ∧
      parts.flatMap Cell.keys = (c.insertLeaf key item).keys ∧
      parts.flatMap Cell.entries = (c.insertLeaf key item).entries) ∧
    (¬ InsertFits order s key → s.indexInsert order key item = none) := by
  have mine : c ∈ leaves := by
    rw [p.leaves]
    simp
  have holds := h.holds c mine
  obtain ⟨ranks, within⟩ := p.ranks_insertLeaf h.sorted new item
  rw [p.insertFits_iff holds inPart, p.indexInsert_eq holds inPart]
  by_cases room : c.keys.length < order - 1
  · -- into the leaf
    rw [if_pos (.inl room)]
    refine ⟨fun _ => ?_, fun never => absurd (fun full => absurd full (Nat.ne_of_lt room)) never⟩
    obtain ⟨n, run, parent, next, cell⟩ := holds.insertIntoLeaf_new new room item
    refine ⟨_, [c.insertLeaf key item], up, run, rfl, ?_, List.flatMap_singleton ..,
      List.flatMap_singleton ..⟩
    have sorted : ((l₁ ++ [c.insertLeaf key item] ++ l₂).flatMap Cell.ranks).Pairwise (· < ·) :=
      p.sorted_of h.sorted (by simpa using ranks) (by simpa using within)
    rw [List.append_assoc, List.singleton_append] at sorted ⊢
    refine (p.leaves ▸ h).replace rfl rfl rfl rfl rfl parent next (cell _ (Function.update_self ..))
      ?_ ?_ sorted
    · exact List.ne_nil_of_mem (Cell.mem_insertLeaf.mpr (.inl rfl))
    · intro k hk
      rcases Cell.mem_insertLeaf.mp hk with rfl | old
      · exact word
      · exact h.words c mine k old
  · -- into two leaves
    have full : c.keys.length = order - 1 := by
      have := holds.few
      omega
    have arity : c.pointers.length = c.keys.length := holds.arity
    rw [if_neg (by simp [room, new])]
    obtain ⟨s₁, newKey, run, split⟩ := splitLf_spec key item (show 2 ≤ order by omega)
      (Nat.ne_of_lt (h.known c.addr (List.mem_append_left _ (List.mem_map_of_mem mine))).2)
      (holds.numKeys.trans full)
    rw [← full, holds.keys, ← arity, holds.pointers] at split
    have ranksParts := Cell.ranks_parts (a := s.fresh) (cut_leaf three).1 split.head ranks
    have sorted := p.sorted_of h.sorted ranksParts.1 fun r hr => by
      obtain ⟨low, r', hr', le⟩ := ranksParts.2 r hr
      refine ⟨low, ?_⟩
      rcases (within r' hr').2 with ⟨r'', hr'', le'⟩ | le'
      · exact .inl ⟨r'', hr'', Nat.le_trans le le'⟩
      · exact .inr (Nat.le_trans le le')
    have waiting := h.waiting p sorted split
    have short := h.height
    obtain ⟨does, never⟩ := insertIntoParent_spec three limit waiting
      (show up.length < exListSize by unfold exListSize; omega)
    have call : s.splitLfInsert order c.addr key item =
        IndexBtree.insertIntoParent order exListSize s₁ c.addr newKey s.fresh := by
      unfold IndexBtree.splitLfInsert
      rw [run]
      rfl
    have same : ParentFits order s₁ exListSize c.addr newKey ↔
        ParentFits order s exListSize c.addr newKey := by
      obtain ⟨nodes, parents⟩ := h.unseen mine split
      have mem : (c.low, c.addr) ∈ leaves.map Cell.bound := List.mem_map_of_mem mine
      exact ParentFits.congr h.above nodes parents mem
    have fits : (c.keys.length = order - 1 → key ∉ c.keys →
        ∀ newKey ∈ ((c.keys.insertIdx (place c.keys key) key).drop (cut (order - 1))).head?,
          ParentFits order s exListSize c.addr newKey) ↔
        ParentFits order s₁ exListSize c.addr newKey := by
      rw [same]
      constructor
      · exact fun fits => fits full new newKey split.head
      · intro fits _ _ newKey' hk
        obtain rfl := Option.some.inj (split.head.symm.trans hk)
        exact fits
    rw [fits, call]
    refine ⟨fun holds => ?_, never⟩
    obtain ⟨s', up', run', placed⟩ := does holds
    exact ⟨s', _, up', run', placed.items.trans split.items,
      h.ofSplit three p full word sorted split placed, Cell.keys_parts .., Cell.entries_parts ..⟩

end Leaf

end DBx1000.Btree
