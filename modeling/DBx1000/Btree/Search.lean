import DBx1000.Btree.Parent

/-!
# Searching the levels

`find_leaf` goes from the root down to the leaf between whose bound and the next one the rank of
the key lies. The walk over the parents of an insertion, up to `last_ex`, ends there too.

## Main result

`Above.search`: every search ends at the one node of a level that can have the key, if the inner
nodes on its way are in the partition of the tree; otherwise one of its assertions fails.
-/

namespace DBx1000.Btree

open Shift

variable {order : Nat} {s s' : IndexBtree} {key : Key}

/-! ### The child for a key -/

theorem sepRank_lt_keyRank {a b : Nat} : sepRank a < keyRank b ↔ a ≤ b := by
  unfold sepRank keyRank
  omega

theorem keyRank_lt_sepRank {a b : Nat} : keyRank a < sepRank b ↔ a < b := by
  unfold sepRank keyRank
  omega

theorem keyRank_lt {a b : Nat} : keyRank a < keyRank b ↔ a < b := by
  unfold keyRank
  omega

/-- The index of the first separator that is larger. -/
def childIdx (keys : List Key) (key : Key) : Nat := keys.findIdx fun k => key < k

/-- Among the children, the bounds up to that of the child are smaller than the rank of the key,
the others larger. -/
theorem Cell.exists_child {c : Cell} (arity : c.pointers.length = c.lows.length)
    (sorted : c.lows.Pairwise (· < ·)) (low : c.low < keyRank key) :
    ∃ u lo child v, c.kids = u ++ (lo, child) :: v ∧
      c.pointers[childIdx c.keys key]? = some child ∧ lo < keyRank key ∧
      ∀ e ∈ v, keyRank key < e.1 := by
  have le : childIdx c.keys key ≤ c.keys.length := List.findIdx_le_length
  have ltLows : childIdx c.keys key < c.lows.length := by rw [length_lows]; omega
  have ltKids : childIdx c.keys key < c.kids.length := by
    rw [kids, List.length_zip, arity, Nat.min_self]
    exact ltLows
  have ltPointers : childIdx c.keys key < c.pointers.length := arity ▸ ltLows
  have at_ : c.kids[childIdx c.keys key] =
      (c.lows[childIdx c.keys key], c.pointers[childIdx c.keys key]) :=
    List.getElem_zip ..
  refine ⟨c.kids.take (childIdx c.keys key), c.lows[childIdx c.keys key], _,
    c.kids.drop (childIdx c.keys key + 1), ?_, List.getElem?_eq_getElem ltPointers, ?_, ?_⟩
  · rw [← at_, ← List.drop_eq_getElem_cons ltKids, List.take_append_drop]
  · -- the key stands behind all separators before the child
    have before (j : Nat) (lt : j < childIdx c.keys key) (inside : j < c.keys.length) :
        c.keys[j] ≤ key := by
      have := List.not_of_lt_findIdx lt
      simpa using this
    clear at_
    generalize childIdx c.keys key = i at before ltLows
    cases i with
    | zero => exact low
    | succ j =>
      have inside : j < c.keys.length := by
        rw [length_lows] at ltLows
        exact Nat.lt_of_succ_lt_succ ltLows
      simp only [lows, List.getElem_cons_succ, List.getElem_map]
      exact sepRank_lt_keyRank.mpr (before j (Nat.lt_succ_self j) inside)
  · intro e he
    have mem : e.1 ∈ c.lows.drop (childIdx c.keys key + 1) := by
      rw [← map_fst_kids arity, ← List.map_drop]
      exact List.mem_map_of_mem he
    obtain ⟨j, lt, eq⟩ := List.mem_drop_iff_getElem.mp mem
    rw [length_lows] at lt
    have inside : childIdx c.keys key < c.keys.length := by omega
    have nextLows : childIdx c.keys key + 1 < c.lows.length := by
      rw [length_lows]
      omega
    have first : keyRank key < c.lows[childIdx c.keys key + 1] := by
      simp only [lows, List.getElem_cons_succ, List.getElem_map]
      refine keyRank_lt_sepRank.mpr ?_
      exact of_decide_eq_true (List.findIdx_getElem (w := inside))
    rw [← eq]
    rcases Nat.eq_zero_or_pos j with rfl | pos
    · exact first
    · exact Nat.lt_trans first (List.pairwise_iff_getElem.mp sorted _ _ _ _ (by omega))

theorem Cell.Holds.childFor {c : Cell} (h : c.Holds order s false) {child : Ptr}
    (slot : c.pointers[childIdx c.keys key]? = some child) : s.childFor c.addr key = child := by
  obtain ⟨inside, -⟩ := List.getElem?_eq_some_iff.mp slot
  unfold IndexBtree.childFor
  rw [h.keysOf]
  exact Option.some.inj ((h.pointer_at inside).symm.trans slot)

/-! ### The partition -/

/-- The inner nodes on the way of a search from a node down. -/
def IndexBtree.innerFrom (s : IndexBtree) (key : Key) : Nat → Ptr → List Ptr
  | 0, _ => []
  | rounds + 1, a =>
    if (s.node a).isLeaf then [] else a :: s.innerFrom key rounds (s.childFor a key)

/-- Every inner node that a search for the key meets is in the partition of the tree. -/
def InPartition (s : IndexBtree) (key : Key) : Prop :=
  ∀ a ∈ s.innerFrom key exListSize s.root, s.inPart a = true

instance (s : IndexBtree) (key : Key) : Decidable (InPartition s key) :=
  inferInstanceAs (Decidable (∀ a ∈ _, _))

theorem innerFrom_leaf {a : Ptr} (leaf : (s.node a).isLeaf = true) (rounds : Nat) :
    s.innerFrom key rounds a = [] := by
  cases rounds with
  | zero => rfl
  | succ rounds => exact if_pos leaf

theorem Cell.Holds.innerFrom {c : Cell} (h : c.Holds order s false) {child : Ptr}
    (slot : c.pointers[childIdx c.keys key]? = some child) (rounds : Nat) :
    s.innerFrom key (rounds + 1) c.addr = c.addr :: s.innerFrom key rounds child := by
  rw [IndexBtree.innerFrom, h.isLeaf, if_neg Bool.false_ne_true, h.childFor slot]

/-! ### The walk over the parents -/

theorem cleanup_succ {lastEx a : Ptr} {rounds : Nat} (h : s.cleanup lastEx rounds a = some ()) :
    s.cleanup lastEx (rounds + 1) a = some () := by
  induction rounds generalizing a with
  | zero => cases h
  | succ rounds ih =>
    rw [IndexBtree.cleanup] at h ⊢
    split at h
    · cases h
    · next child =>
      rw [if_neg child]
      dsimp only at h ⊢
      split at h
      · next here => rw [if_pos here]
      · next on =>
        rw [if_neg on]
        exact ih h

theorem cleanup_le {lastEx a : Ptr} {rounds rounds' : Nat} (le : rounds ≤ rounds')
    (h : s.cleanup lastEx rounds a = some ()) : s.cleanup lastEx rounds' a = some () := by
  induction le with
  | refl => exact h
  | step _ ih => exact cleanup_succ ih

/-- One node further down the walk is one longer. -/
theorem cleanup_child {lastEx a child : Ptr} {rounds : Nat} (ne : child ≠ null)
    (parent : (s.node child).parent = a)
    (h : lastEx = a ∨ s.cleanup lastEx rounds a = some ()) :
    s.cleanup lastEx (rounds + 1) child = some () := by
  rw [IndexBtree.cleanup, if_neg ne]
  dsimp only
  rw [parent]
  split
  · rfl
  · next on => exact h.resolve_left fun e => on e.symm

theorem exList_of_cleanup {lastEx a : Ptr} {rounds : Nat}
    (h : s.cleanup lastEx rounds a = some ()) : s.exList lastEx (rounds + 1) a = some () := by
  induction rounds generalizing a with
  | zero => cases h
  | succ rounds ih =>
    rw [IndexBtree.cleanup] at h
    split at h
    · cases h
    · next child =>
      dsimp only at h
      rw [IndexBtree.exList]
      split
      · rfl
      · split at h
        · next here => rw [IndexBtree.exList, if_pos here]
        · exact ih h

/-! ### One step down -/

theorem Cell.Holds.scan_child {c : Cell} (h : c.Holds order s false) (key : Key) :
    (s.node c.addr).scan order (fun k => key < k) (s.node c.addr).numKeys 0 =
      some (childIdx c.keys key) := by
  rw [scan_zero_eq _ (h.numKeys ▸ h.few), h.numKeys, h.keys]
  rfl

/-- The step of the search from a cell to the child for the key. -/
theorem Cell.Holds.findLeafFrom {c : Cell} (h : c.Holds order s false) (pos : 0 < order)
    (inPart : s.inPart c.addr = true) (acc : IdxAcc) {child lastEx : Ptr} (child_eq : c.pointers[childIdx c.keys key]? = some child)
    (ne : child ≠ null) (parent : (s.node child).parent = c.addr) {depth : Nat}
    (few : depth < exListSize)
    (walk : lastEx ≠ null → s.cleanup lastEx depth c.addr = some ()) (rounds : Nat) :
    ∃ lastEx', s.findLeafFrom order acc key (rounds + 1) c.addr lastEx =
        s.findLeafFrom order acc key rounds child lastEx' ∧
      (lastEx' ≠ null → s.cleanup lastEx' (depth + 1) child = some ()) := by
  have slot : (s.node c.addr).loadPointer order (childIdx c.keys key) = some child := by
    have le : childIdx c.keys key ≤ c.keys.length := List.findIdx_le_length
    have arity : c.pointers.length = c.keys.length + 1 := h.arity
    have few := h.few
    rw [loadPointer_of_lt (by omega)]
    exact (h.pointer_at (by omega)).symm.trans child_eq
  have down (last : Ptr) (at_ : last = c.addr ∨ s.cleanup last depth c.addr = some ()) :
      s.cleanup last (depth + 1) child = some () := cleanup_child ne parent at_
  rw [IndexBtree.findLeafFrom]
  simp only [h.isLeaf, inPart, h.scan_child key, slot, Option.bind_eq_bind, Option.bind_some]
  rw [if_neg Bool.false_ne_true, if_neg (by decide : ¬ true = false)]
  split
  · split
    · -- a full child: the nodes above it stay
      refine ⟨_, rfl, fun _ => ?_⟩
      split
      · exact down c.addr (.inl rfl)
      · next held => exact down lastEx (.inr (walk held))
    · refine ⟨null, ?_, fun ne => absurd rfl ne⟩
      by_cases held : lastEx = null
      · simp only [held, ne_eq, not_true_eq_false, if_false]
      · simp only [ne_eq, held, not_false_eq_true, if_true, cleanup_le (Nat.le_of_lt few) (walk held)]
        rfl
  · exact ⟨lastEx, rfl, fun held => down lastEx (.inr (walk held))⟩

theorem Cell.Holds.findLeafFrom_out {c : Cell} (h : c.Holds order s false)
    (out : s.inPart c.addr = false) (acc : IdxAcc) (rounds : Nat) (lastEx : Ptr) :
    s.findLeafFrom order acc key (rounds + 1) c.addr lastEx = none := by
  rw [IndexBtree.findLeafFrom]
  simp only [h.isLeaf, out, Bool.false_eq_true, if_false, if_true]

/-! ### The whole search -/

/-- Every search goes down to the node of a level between whose bound and the next one the rank of
the key lies, through nodes that the assertions let pass. -/
theorem Above.search {below : List (Nat × Ptr)} {up : List Level} (above : Above order s below up)
    (pos : 0 < order) (sorted : (below.map Prod.fst).Pairwise (· < ·))
    (known : ∀ a ∈ below.map Prod.snd ++ addrs up, a ≠ null) (few : up.length ≤ exListSize)
    (key : Key) :
    ∃ front lo a back inner, below = front ++ (lo, a) :: back ∧ lo < keyRank key ∧
      (∀ e ∈ back, keyRank key < e.1) ∧
      (∀ rounds, s.innerFrom key (rounds + up.length) s.root =
        inner ++ s.innerFrom key rounds a) ∧
      ∀ acc rounds,
        ((∀ x ∈ inner, s.inPart x = true) → ∃ lastEx,
          s.findLeafFrom order acc key (rounds + up.length) s.root null =
            s.findLeafFrom order acc key rounds a lastEx ∧
          (lastEx ≠ null → s.cleanup lastEx up.length a = some ())) ∧
        ((¬ ∀ x ∈ inner, s.inPart x = true) →
          s.findLeafFrom order acc key (rounds + up.length) s.root null = none) := by
  induction up generalizing below with
  | nil =>
    obtain ⟨a, rfl, -, root⟩ := above
    refine ⟨[], 0, a, [], [], rfl, Nat.succ_pos _, by simp, fun rounds => ?_, fun acc rounds =>
      ⟨fun _ => ⟨null, ?_, by simp⟩, fun never => absurd (by simp) never⟩⟩
    all_goals
      rw [root]
      rfl
  | cons level up ih =>
    obtain ⟨split, holds, -, above⟩ := above
    have lows : below.map Prod.fst = level.flatMap Cell.lows := by
      rw [split, List.map_flatMap]
      exact List.flatMap_congr fun d hd => Cell.map_fst_kids (holds d hd).1.length_pointers
    rw [lows] at sorted
    obtain ⟨front, lo', a', back, inner, bounds, low, large, way, runs⟩ := ih above (by
        rw [List.map_map]
        exact sorted.sublist (Cell.map_low_sublist level)) (fun a ha => known a (by
        rw [addrs_cons]
        rw [List.map_map] at ha
        exact List.mem_append_right _ ha)) (Nat.le_of_lt few)
    obtain ⟨l₁, rest, rfl, -, rest_eq⟩ := List.map_eq_append_iff.mp bounds
    obtain ⟨c, l₂, rfl, same, rfl⟩ := List.map_eq_cons_iff.mp rest_eq
    obtain ⟨rfl, rfl⟩ := Prod.mk.inj same
    obtain ⟨cell, -, parents⟩ := holds c (by simp)
    have sortedLows (d : Cell) (hd : d ∈ l₁ ++ c :: l₂) : d.lows.Pairwise (· < ·) :=
      (List.pairwise_flatMap.mp sorted).1 d hd
    obtain ⟨u, lo, child, v, kids, slot, lower, higher⟩ :=
      Cell.exists_child cell.length_pointers (sortedLows c (by simp)) low
    have mem : (lo, child) ∈ below := by
      rw [split]
      exact List.mem_flatMap.mpr ⟨c, by simp, by rw [kids]; simp⟩
    have more (rounds : Nat) : rounds + (up.length + 1) = rounds + 1 + up.length := by omega
    refine ⟨l₁.flatMap Cell.kids ++ u, lo, child, v ++ l₂.flatMap Cell.kids, inner ++ [c.addr], ?_,
      lower, ?_, fun rounds => ?_, fun acc rounds => ⟨fun inPart => ?_, fun out => ?_⟩⟩
    · rw [split, List.flatMap_append, List.flatMap_cons, kids]
      simp
    · intro e he
      rcases List.mem_append.mp he with he | he
      · exact higher e he
      · -- a child of a cell further to the right
        obtain ⟨d, hd, mem⟩ := List.mem_flatMap.mp he
        have first := large d.bound (List.mem_map_of_mem hd)
        have inLows : e.1 ∈ d.lows := by
          rw [← Cell.map_fst_kids (holds d (by simp [hd])).1.length_pointers]
          exact List.mem_map_of_mem mem
        rcases List.mem_cons.mp inLows with e' | behind
        · exact e' ▸ first
        · exact Nat.lt_trans first ((List.pairwise_cons.mp (sortedLows d (by simp [hd]))).1 _ behind)
    · rw [List.length_cons, more, way, cell.innerFrom slot, List.append_assoc,
        List.singleton_append]
    · obtain ⟨lastEx, run, walk⟩ := (runs acc (rounds + 1)).1 fun x hx =>
        inPart x (List.mem_append_left _ hx)
      obtain ⟨lastEx', step, walk'⟩ := cell.findLeafFrom pos (inPart c.addr (by simp)) acc slot
        (known child (List.mem_append_left _ (List.mem_map_of_mem mem)))
        (parents child (List.mem_of_getElem? slot)) (Nat.lt_of_succ_le few) walk rounds
      refine ⟨lastEx', ?_, walk'⟩
      rw [← step, ← run, List.length_cons, more]
    · -- an assertion fails further up, or at this node
      rw [List.length_cons, more]
      by_cases above : ∀ x ∈ inner, s.inPart x = true
      · obtain ⟨lastEx, run, -⟩ := (runs acc (rounds + 1)).1 above
        have here : s.inPart c.addr = false := by
          by_contra inside
          refine out fun x hx => ?_
          rcases List.mem_append.mp hx with hx | hx
          · exact above x hx
          · obtain rfl := List.mem_singleton.mp hx
            exact eq_true_of_ne_false inside
        rw [run]
        exact cell.findLeafFrom_out here acc rounds lastEx
      · exact (runs acc (rounds + 1)).2 above

end DBx1000.Btree
