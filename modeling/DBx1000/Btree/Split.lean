import DBx1000.Btree.Levels

/-!
# Splitting a node

A full node is split through temporary arrays that have the new entry in its place. A leaf
keeps the first entries and gives the others to a new leaf. An inner node gives the key at the
cut to its parent, and the children behind the cut get the new node as their parent.

## Main result

`splits_keep_order`: the entries of the two leaves are the old ones and the new one in order,
and the keys and children of the two inner nodes are the old ones with the new ones inserted.
-/

namespace DBx1000.Btree

open Shift

variable {order : Nat} {s s' : IndexBtree}

namespace IndexBtree

def keysOf (s : IndexBtree) (a : Ptr) : List Key := cells (s.node a).keys (s.node a).numKeys

/-- The keys of a leaf with their items. -/
def entries (s : IndexBtree) (a : Ptr) : List (Key × Ptr) :=
  (s.keysOf a).zip (cells (s.node a).pointers (s.node a).numKeys)

def childrenOf (s : IndexBtree) (a : Ptr) : List Ptr :=
  cells (s.node a).pointers ((s.node a).numKeys + 1)

/-- The child of a node to which a search for a key goes. -/
def childFor (s : IndexBtree) (a : Ptr) (key : Key) : Ptr :=
  (s.node a).pointers ((s.keysOf a).findIdx fun k => key < k)

end IndexBtree

namespace Cell.Holds

variable {leaf : Bool} {c : Cell}

theorem pointer_at (h : c.Holds order s leaf) {j : Nat} (lt : j < c.pointers.length) :
    c.pointers[j]? = some ((s.node c.addr).pointers j) :=
  (cells_eq_iff.mp h.pointers).2 j lt

end Cell.Holds

/-- The keys and children that the heap has for a cell. -/
theorem Cell.Holds.keysOf {leaf : Bool} {c : Cell} (h : c.Holds order s leaf) :
    s.keysOf c.addr = c.keys := by
  rw [IndexBtree.keysOf, h.numKeys, h.keys]

theorem Cell.Holds.childrenOf {c : Cell} (h : c.Holds order s false) :
    s.childrenOf c.addr = c.pointers := by
  have arity : c.pointers.length = c.keys.length + 1 := h.arity
  rw [IndexBtree.childrenOf, h.numKeys, ← arity, h.pointers]

theorem Cell.holds_of {leaf : Bool} {c : Cell} {n : BtNode} (node : s.node c.addr = n)
    (isLeaf : n.isLeaf = leaf) (numKeys : n.numKeys = c.keys.length)
    (keys : cells n.keys n.numKeys = c.keys)
    (pointers : cells n.pointers c.pointers.length = c.pointers)
    (arity : c.pointers.length = c.keys.length + if leaf then 0 else 1)
    (few : c.keys.length ≤ order - 1) : c.Holds order s leaf := by
  subst node
  exact ⟨isLeaf, numKeys, numKeys ▸ keys, pointers, arity, few⟩

/-! ### Splitting an inner node -/

/-- The children in the slots from `i` on get the node as their parent. -/
theorem adopt_spec {a : Ptr} {children : List Ptr} {i : Nat} (bound : i + children.length ≤ order)
    (slots : ∀ k < children.length, children[k]? = some ((s.node a).pointers (i + k)))
    (others : a ∉ children) :
    ∃ s', IndexBtree.adopt order a children.length i s = some s' ∧ s'.root = s.root ∧
      s'.fresh = s.fresh ∧ s'.itemNext = s.itemNext ∧ ∀ x, s'.node x =
        if x ∈ children then { s.node x with parent := a } else s.node x := by
  induction children generalizing s i with
  | nil => exact ⟨s, rfl, rfl, rfl, rfl, fun x => by simp⟩
  | cons p children ih =>
    rw [List.length_cons] at bound slots ⊢
    obtain ⟨ne, others⟩ : a ≠ p ∧ a ∉ children := by simpa using others
    have first : (s.node a).pointers i = p := by
      have slot := slots 0 (Nat.succ_pos _)
      exact (Option.some.inj slot).symm
    unfold IndexBtree.adopt
    rw [loadPointer_of_lt (by omega), first]
    simp only [Option.bind_eq_bind, Option.bind_some]
    -- a child is not the node itself, so the pointers stay
    have mine : (s.setNode p { s.node p with parent := a }).node a = s.node a :=
      Function.update_of_ne ne ..
    obtain ⟨s', run, root, fresh, items, nodes⟩ :=
      ih (s := s.setNode p { s.node p with parent := a }) (i := i + 1) (by omega) (by
        intro k lt
        have slot := slots (k + 1) (by omega)
        rw [mine, Nat.add_assoc, Nat.add_comm 1 k]
        exact slot) others
    refine ⟨s', run, root, fresh, items, fun x => ?_⟩
    rw [nodes x]
    change (if x ∈ children then { Function.update s.node p _ x with parent := a }
      else Function.update s.node p _ x) = _
    rw [Function.update_apply]
    -- the first child is stored here and may be stored again
    by_cases e : x = p
    · subst e
      simp
    · simp [e]

theorem cut_bounds (two : 2 ≤ order) : 0 < cut order ∧ cut order < order := by
  unfold cut
  split <;> omega

/-- The first cells of a temporary array are copied. -/
theorem cells_take {ws ws' : Nat → Nat} {l : List Nat} {count k : Nat} (array : cells ws count = l)
    (le : k ≤ count) (same : ∀ j < k, ws' j = ws j) : cells ws' k = l.take k := by
  obtain ⟨length, cell⟩ := cells_eq_iff.mp array
  refine cells_eq_iff.mpr ⟨by rw [List.length_take]; omega, fun j lt => ?_⟩
  rw [List.getElem?_take_of_lt lt, cell j (by omega), same j lt]

/-- The other cells of a temporary array are copied to the front of another one. -/
theorem cells_drop {ws ws' : Nat → Nat} {l : List Nat} {count k : Nat} (array : cells ws count = l)
    (same : ∀ j < count - k, ws' j = ws (j + k)) : cells ws' (count - k) = l.drop k := by
  obtain ⟨length, cell⟩ := cells_eq_iff.mp array
  refine cells_eq_iff.mpr ⟨by rw [List.length_drop]; omega, fun j lt => ?_⟩
  rw [List.getElem?_drop, cell (k + j) (by omega), same j lt, Nat.add_comm]

/-- The first cells of the temporary arrays, and one pointer more, in a node. -/
def firstPart (order : Nat) (tk tp : Nat → Nat) (n : BtNode) : BtNode :=
  { n with
    pointers := Function.update
      (fun x => if 0 ≤ x ∧ x < 0 + (cut order - 1) then tp (x - 0 + 0) else n.pointers x)
      (cut order - 1) (tp (cut order - 1))
    keys := fun x => if 0 ≤ x ∧ x < 0 + (cut order - 1) then tk (x - 0 + 0) else n.keys x
    numKeys := 0 + (cut order - 1) }

/-- The other cells of the temporary arrays in a new node. -/
def secondPart (order : Nat) (tk tp : Nat → Nat) (n : BtNode) : BtNode :=
  { n with
    pointers := Function.update
      (fun x => if 0 ≤ x ∧ x < 0 + (order - cut order) then tp (x - 0 + cut order)
        else n.pointers x) (order - cut order) (tp order)
    keys := fun x =>
      if 0 ≤ x ∧ x < 0 + (order - cut order) then tk (x - 0 + cut order) else n.keys x
    numKeys := 0 + (order - cut order) }

section Parts

variable {tk tp : Nat → Nat} {ks ps : List Nat}

theorem cells_firstPart (n : BtNode) (two : 2 ≤ order) (keys : cells tk order = ks)
    (pointers : cells tp (order + 1) = ps) :
    cells (firstPart order tk tp n).keys (cut order - 1) = ks.take (cut order - 1) ∧
      cells (firstPart order tk tp n).pointers (cut order) = ps.take (cut order) := by
  obtain ⟨more, less⟩ := cut_bounds two
  constructor
  · refine cells_take keys (by omega) fun j lt => ?_
    unfold firstPart
    grind
  · refine cells_take pointers (by omega) fun j lt => ?_
    unfold firstPart
    dsimp only
    rw [Function.update_apply]
    grind

theorem cells_secondPart (n : BtNode) (two : 2 ≤ order) (keys : cells tk order = ks)
    (pointers : cells tp (order + 1) = ps) :
    cells (secondPart order tk tp n).keys (order - cut order) = ks.drop (cut order) ∧
      cells (secondPart order tk tp n).pointers (order + 1 - cut order) = ps.drop (cut order) := by
  obtain ⟨more, less⟩ := cut_bounds two
  constructor
  · refine cells_drop keys fun j lt => ?_
    unfold secondPart
    grind
  · refine cells_drop pointers fun j lt => ?_
    unfold secondPart
    dsimp only
    rw [Function.update_apply]
    grind

variable {c : Cell} {n : BtNode}

theorem Cell.holds_leftPart (two : 2 ≤ order) (keys : cells tk order = c.keys)
    (pointers : cells tp (order + 1) = c.pointers) {next : Ptr}
    (node : s.node c.addr = { firstPart order tk tp n with next := next })
    (isLeaf : n.isLeaf = false) : (c.leftPart (cut order)).Holds order s false := by
  obtain ⟨more, less⟩ := cut_bounds two
  obtain ⟨firstKeys, firstPointers⟩ := cells_firstPart n two keys pointers
  have takeKeys : (c.keys.take (cut order - 1)).length = cut order - 1 := by
    rw [List.length_take, ← keys, length_cells]
    omega
  have takePointers : (c.pointers.take (cut order)).length = cut order := by
    rw [List.length_take, ← pointers, length_cells]
    omega
  refine Cell.holds_of node isLeaf ((Nat.zero_add _).trans takeKeys.symm) ?_
    ((congrArg _ takePointers).trans firstPointers) ?_ ?_
  · exact (congrArg _ (Nat.zero_add _)).trans firstKeys
  · change (List.take _ _).length = (List.take _ _).length + 1
    omega
  · change (List.take _ _).length ≤ _
    omega

theorem Cell.holds_rightPart (two : 2 ≤ order) (keys : cells tk order = c.keys)
    (pointers : cells tp (order + 1) = c.pointers) (kPrime : Key) {a parent next : Ptr}
    (node : s.node a =
      { secondPart order tk tp n with isLeaf := false, parent := parent, next := next }) :
    (c.rightPart (cut order) kPrime a).Holds order s false := by
  obtain ⟨more, less⟩ := cut_bounds two
  obtain ⟨secondKeys, secondPointers⟩ := cells_secondPart n two keys pointers
  have dropKeys : (c.keys.drop (cut order)).length = order - cut order := by
    rw [List.length_drop, ← keys, length_cells]
  have dropPointers : (c.pointers.drop (cut order)).length = order + 1 - cut order := by
    rw [List.length_drop, ← pointers, length_cells]
  refine Cell.holds_of node rfl ((Nat.zero_add _).trans dropKeys.symm) ?_
    ((congrArg _ dropPointers).trans secondPointers) ?_ ?_
  · exact (congrArg _ (Nat.zero_add _)).trans secondKeys
  · change (List.drop _ _).length = (List.drop _ _).length + 1
    omega
  · change (List.drop _ _).length ≤ _
    omega

end Parts

/-- The heap of `split_nl_insert` before the new node adopts its children. -/
def IndexBtree.parted (order : Nat) (s : IndexBtree) (a : Ptr) (tk tp : Nat → Nat) : IndexBtree :=
  let made : IndexBtree := ⟨s.root, Function.update s.node s.fresh
    { s.node s.fresh with isLeaf := false, numKeys := 0, parent := null, next := null },
    s.fresh + 1, s.itemNext, s.inPart⟩
  (made.setNode a { firstPart order tk tp (s.node a) with next := s.fresh }).setNode s.fresh
    { secondPart order tk tp (s.node s.fresh) with
      isLeaf := false, parent := (s.node a).parent, next := (s.node a).next }

/-- The temporary arrays have the new key and the new child in their places, and are copied to the
two nodes. -/
theorem splitNl_eq {c : Cell} {i : Nat} (key : Key) (right : Ptr) (two : 2 ≤ order)
    (h : c.Holds order s false) (full : c.keys.length = order - 1) (le : i ≤ c.keys.length)
    (old : c.addr ≠ s.fresh) :
    ∃ tk tp, cells tk order = (c.insert i key right).keys ∧
      cells tp (order + 1) = (c.insert i key right).pointers ∧
      s.splitNl order c.addr i key right =
        (IndexBtree.adopt order s.fresh (0 + (order - cut order) + 1) 0
          (s.parted order c.addr tk tp)).bind
          fun s₁ => some (s₁, tk (cut order - 1), s.fresh) := by
  obtain ⟨more, less⟩ := cut_bounds two
  have numKeys := h.numKeys
  have arity := h.length_pointers
  rw [Cell.length_lows] at arity
  -- the temporary array of pointers has one cell more than the array of the node
  obtain ⟨tempPointers, tp, spreadPointers, storePointer, pointers⟩ := spread_cells
    ((s.node c.addr).loadPointer order) (s.node c.addr).pointers (fun _ => null)
    (show (s.node c.addr).numKeys + 1 < order + 1 by omega)
    (fun k lt => loadPointer_of_lt (show k < order by omega))
    (Nat.add_le_add_right (numKeys ▸ le) 1) right
  obtain ⟨tempKeys, tk, spreadKeys, storeKey, keys⟩ := spread_cells
    ((s.node c.addr).loadKey order) (s.node c.addr).keys (fun _ => 0)
    (show (s.node c.addr).numKeys < order by omega)
    (fun k lt => loadKey_of_lt (show k < order - 1 by omega)) (numKeys ▸ le) key
  refine ⟨tk, tp, ?_, ?_, ?_⟩
  · rw [show order = (s.node c.addr).numKeys + 1 by omega, keys, numKeys, h.keys]
    rfl
  · rw [show order + 1 = (s.node c.addr).numKeys + 1 + 1 by omega, pointers, numKeys, ← arity,
      h.pointers]
    rfl
  have loads (k : Nat) (lt : k < order) :
      loadTemp order tk k = some (tk k) ∧ loadTemp (order + 1) tp k = some (tp k) :=
    ⟨loadTemp_of_lt lt, loadTemp_of_lt (Nat.lt_succ_of_lt lt)⟩
  unfold IndexBtree.splitNl IndexBtree.makeNode
  dsimp only
  -- the node and its new entry are spread out over the temporaries
  rw [Function.update_of_ne old, spreadPointers, spreadKeys]
  simp only [Option.bind_eq_bind, Option.bind_some]
  rw [storePointer, storeKey]
  simp only [Option.bind_some]
  -- the old node takes the first cells
  rw [fill_eq (by omega) (fun k lt => loads k (by omega)) (by
    intro m le
    dsimp only at le
    omega)]
  simp only [Option.bind_some, Function.update_self]
  rw [(loads (cut order - 1) (by omega)).2, (loads (cut order - 1) (by omega)).1]
  simp only [Option.bind_some]
  rw [storePointer_of_lt _ (by omega)]
  simp only [Option.bind_some]
  -- the new node takes the others
  rw [fill_eq (by omega) (fun k lt => loads k (by omega)) (by
    intro m _
    omega)]
  simp only [Option.bind_some]
  rw [loadTemp_of_lt (Nat.lt_succ_self order)]
  simp only [Option.bind_some]
  rw [storePointer_of_lt _ (by omega)]
  simp only [Option.bind_some]
  rfl

/-- What `split_nl_insert` leaves for its last call. -/
structure SplitNl (order : Nat) (s s' : IndexBtree) (c : Cell) (kPrime : Key) : Prop where
  middle : c.keys[cut order - 1]? = some kPrime
  root : s'.root = s.root
  fresh : s'.fresh = s.fresh + 1
  items : s'.itemNext = s.itemNext
  left : (c.leftPart (cut order)).Holds order s' false
  right : (c.rightPart (cut order) kPrime s.fresh).Holds order s' false
  parent : (s'.node c.addr).parent = (s.node c.addr).parent
  parentRight : (s'.node s.fresh).parent = (s.node c.addr).parent
  next : (s'.node c.addr).next = s.fresh
  nextRight : (s'.node s.fresh).next = (s.node c.addr).next
  others : ∀ x, x ≠ c.addr → x ≠ s.fresh → s'.node x =
    if x ∈ c.pointers.drop (cut order) then { s.node x with parent := s.fresh } else s.node x

theorem splitNl_spec {c : Cell} {i : Nat} (key : Key) (right : Ptr) (two : 2 ≤ order)
    (h : c.Holds order s false) (full : c.keys.length = order - 1) (le : i ≤ c.keys.length)
    (old : c.addr ≠ s.fresh)
    (apart : ∀ p ∈ (c.insert i key right).pointers, p ≠ c.addr ∧ p ≠ s.fresh) :
    ∃ s' kPrime, s.splitNl order c.addr i key right = some (s', kPrime, s.fresh) ∧
      SplitNl order s s' (c.insert i key right) kPrime := by
  obtain ⟨more, less⟩ := cut_bounds two
  obtain ⟨tk, tp, keys, pointers, split⟩ := splitNl_eq key right two h full le old
  have atNew : (s.parted order c.addr tk tp).node s.fresh =
      { secondPart order tk tp (s.node s.fresh) with
        isLeaf := false, parent := (s.node c.addr).parent, next := (s.node c.addr).next } :=
    Function.update_self ..
  have atOld : (s.parted order c.addr tk tp).node c.addr =
      { firstPart order tk tp (s.node c.addr) with next := s.fresh } := by
    change Function.update (Function.update _ _ _) _ _ _ = _
    rw [Function.update_of_ne old, Function.update_self]
  -- no other node is stored to before the children
  have elsewhere (x : Ptr) (ne : x ≠ c.addr) (ne' : x ≠ s.fresh) :
      (s.parted order c.addr tk tp).node x = s.node x := by
    change Function.update (Function.update (Function.update _ _ _) _ _) _ _ _ = _
    rw [Function.update_of_ne ne', Function.update_of_ne ne, Function.update_of_ne ne']
  -- the loop at the end goes through the children of the new node
  have second := (cells_secondPart (s.node s.fresh) two keys pointers).2
  have length : ((c.insert i key right).pointers.drop (cut order)).length =
      0 + (order - cut order) + 1 := by
    rw [← second, length_cells]
    omega
  obtain ⟨s', run, root, fresh, items, nodes⟩ := adopt_spec (s := s.parted order c.addr tk tp)
    (a := s.fresh) (i := 0)
    (show 0 + ((c.insert i key right).pointers.drop (cut order)).length ≤ order by omega) (by
      intro k lt
      rw [atNew, Nat.zero_add]
      exact (cells_eq_iff.mp second).2 k (by omega)) (by
      intro mem
      exact (apart _ (List.mem_of_mem_drop mem)).2 rfl)
  rw [length] at run
  rw [split, run]
  refine ⟨s', tk (cut order - 1), rfl, ?_⟩
  -- and neither of the two nodes is among them
  have atNew' : s'.node s.fresh = _ :=
    (nodes s.fresh).trans ((if_neg fun mem => (apart _ (List.mem_of_mem_drop mem)).2 rfl).trans
      atNew)
  have atOld' : s'.node c.addr = _ :=
    (nodes c.addr).trans ((if_neg fun mem => (apart _ (List.mem_of_mem_drop mem)).1 rfl).trans
      atOld)
  exact {
    middle := (cells_eq_iff.mp keys).2 _ (by omega)
    root := root
    fresh := fresh
    items := items
    left := Cell.holds_leftPart two keys pointers atOld' h.isLeaf
    right := Cell.holds_rightPart two keys pointers _ atNew'
    parent := (congrArg BtNode.parent atOld').trans rfl
    parentRight := (congrArg BtNode.parent atNew').trans rfl
    next := (congrArg BtNode.next atOld').trans rfl
    nextRight := (congrArg BtNode.next atNew').trans rfl
    others := fun x ne ne' => by rw [nodes, elsewhere x ne ne'] }

/-! ### Splitting a leaf -/

/-- What `split_lf_insert` leaves for its last call. -/
structure SplitLf (order : Nat) (s s' : IndexBtree) (leaf : Ptr) (ks : List Key)
    (ps : List Ptr) (newKey : Key) : Prop where
  head : (ks.drop (cut (order - 1))).head? = some newKey
  root : s'.root = s.root
  fresh : s'.fresh = s.fresh + 1
  items : s'.itemNext = s.itemNext
  isLeaf : (s'.node leaf).isLeaf = (s.node leaf).isLeaf
  isLeafRight : (s'.node s.fresh).isLeaf = true
  numKeys : (s'.node leaf).numKeys = cut (order - 1)
  numKeysRight : (s'.node s.fresh).numKeys = order - cut (order - 1)
  keys : cells (s'.node leaf).keys (s'.node leaf).numKeys = ks.take (cut (order - 1))
  keysRight : cells (s'.node s.fresh).keys (s'.node s.fresh).numKeys = ks.drop (cut (order - 1))
  pointers : cells (s'.node leaf).pointers (s'.node leaf).numKeys = ps.take (cut (order - 1))
  pointersRight : cells (s'.node s.fresh).pointers (s'.node s.fresh).numKeys =
    ps.drop (cut (order - 1))
  parent : (s'.node leaf).parent = (s.node leaf).parent
  parentRight : (s'.node s.fresh).parent = (s.node leaf).parent
  next : (s'.node leaf).next = s.fresh
  nextRight : (s'.node s.fresh).next = (s.node leaf).next
  others : ∀ x, x ≠ leaf → x ≠ s.fresh → s'.node x = s.node x

/-- The index of the first key that is not smaller. -/
def place (keys : List Key) (key : Key) : Nat := keys.findIdx fun k => ¬ k < key

theorem place_le (keys : List Key) (key : Key) : place keys key ≤ keys.length :=
  List.findIdx_le_length

theorem splitLf_spec {leaf : Ptr} (key : Key) (item : Ptr) (two : 2 ≤ order) (old : leaf ≠ s.fresh)
    (full : (s.node leaf).numKeys = order - 1) :
    let keys := cells (s.node leaf).keys (order - 1)
    let items := cells (s.node leaf).pointers (order - 1)
    ∃ s' newKey, s.splitLf order leaf key item = some (s', newKey, s.fresh) ∧
      SplitLf order s s' leaf (keys.insertIdx (place keys key) key)
        (items.insertIdx (place keys key) item) newKey := by
  intro keys items
  have cutBounds : 0 < cut (order - 1) ∧ cut (order - 1) ≤ order - 1 := by
    unfold cut
    split <;> omega
  obtain ⟨more, less⟩ := cutBounds
  have le : place keys key ≤ order - 1 := Nat.le_trans (place_le keys key) (Nat.le_of_eq length_cells)
  -- the temporary array
  obtain ⟨temp, tmp, spread, store, array⟩ := spread_cells
    (fun i => do some ((← (s.node leaf).loadKey order i), (← (s.node leaf).loadPointer order i)))
    (fun i => ((s.node leaf).keys i, (s.node leaf).pointers i)) (fun _ => (0, null))
    (show order - 1 < order by omega) (fun k (lt : k < order - 1) => by
      rw [loadKey_of_lt lt, loadPointer_of_lt (show k < order by omega)]
      rfl) le (key, item)
  have same : order - 1 + 1 = order := by omega
  rw [same] at array
  unfold IndexBtree.splitLf IndexBtree.makeLf IndexBtree.makeNode IndexBtree.setNode
  dsimp only
  simp only [Function.update_self, Function.update_of_ne old]
  rw [if_pos full, scan_zero_eq _ (Nat.le_refl _), full]
  simp only [Option.bind_eq_bind, Option.bind_some]
  rw [show (cells (s.node leaf).keys (order - 1)).findIdx (fun k => decide ¬ k < key) =
    place keys key from rfl]
  simp only [Option.bind_eq_bind] at spread
  -- the entries of the leaf leave a gap in which the new one is stored
  rw [spread]
  simp only [Option.bind_some]
  rw [store]
  simp only [Option.bind_some]
  have keys' : cells (fun j => (tmp j).1) order = keys.insertIdx (place keys key) key := by
    have := congrArg (List.map Prod.fst) array
    rw [List.map_insertIdx, cells_map, cells_map] at this
    exact this
  have items' : cells (fun j => (tmp j).2) order = items.insertIdx (place keys key) item := by
    have := congrArg (List.map Prod.snd) array
    rw [List.map_insertIdx, cells_map, cells_map] at this
    exact this
  have loads (k : Nat) (lt : k < order) :
      (loadTemp order tmp k).map Prod.fst = some (tmp k).1 ∧
        (loadTemp order tmp k).map Prod.snd = some (tmp k).2 := by
    rw [loadTemp_of_lt lt]
    exact ⟨rfl, rfl⟩
  -- the lower entries stay
  rw [fill_eq (by omega) (fun k lt => loads k (by omega)) (by
    intro m le
    dsimp only at le
    omega)]
  simp only [Option.bind_some]
  -- the upper ones move to the new leaf
  rw [fill_eq (by omega) (fun k lt => loads k (by omega)) (by
    intro m _
    omega)]
  simp only [Option.bind_some]
  -- what is behind them is cleared in both leaves
  rw [clearRest_eq (by omega)]
  simp only [Option.bind_some]
  rw [clearRest_eq (by omega)]
  simp only [Option.bind_some]
  rw [loadKey_of_lt (by omega)]
  simp only [Option.bind_some]
  refine ⟨_, _, rfl, ?_⟩
  constructor
  case head =>
    have first := (cells_eq_iff.mp keys').2 (cut (order - 1)) (by omega)
    rw [List.head?_drop, first]
    simp
    omega
  case others =>
    intro x ne ne'
    simp only [Function.update_of_ne ne, Function.update_of_ne ne']
  case root => rfl
  case fresh => rfl
  case items => rfl
  all_goals
    dsimp only
    simp only [Function.update_self, Function.update_of_ne old, Nat.zero_add, Nat.zero_le,
      true_and, Nat.sub_zero, Nat.add_zero]
  case keys =>
    refine cells_take keys' (by omega) fun j lt => ?_
    rw [if_pos lt]
  case pointers =>
    refine cells_take items' (by omega) fun j lt => ?_
    rw [if_neg (by omega), if_pos lt]
  case keysRight =>
    refine cells_drop keys' fun j lt => ?_
    rw [if_pos lt]
  case pointersRight =>
    refine cells_drop items' fun j lt => ?_
    rw [if_neg (by omega), if_pos lt]

/-! ### A new root -/

/-- What `insert_into_new_root` does to the heap: the new root is the parent of the two nodes. -/
theorem insertIntoNewRoot_eq (two : 2 ≤ order) (s : IndexBtree) (left right : Ptr) (key : Key) :
    ∃ s', s.insertIntoNewRoot order left key right = some s' ∧ s'.root = s.fresh ∧
      s'.fresh = s.fresh + 1 ∧ s'.itemNext = s.itemNext ∧
      (s'.node left).parent = s.fresh ∧ (s'.node right).parent = s.fresh ∧
      (∀ x, x ≠ s.fresh → x ≠ left → x ≠ right → s'.node x = s.node x) ∧
      (left ≠ right → left ≠ s.fresh → right ≠ s.fresh →
        s'.node s.fresh = { s.node s.fresh with
          isLeaf := false, numKeys := 1, parent := null, next := null
          keys := Function.update (s.node s.fresh).keys 0 key
          pointers := Function.update (Function.update (s.node s.fresh).pointers 0 left) 1 right } ∧
        s'.node left = { s.node left with parent := s.fresh, next := right } ∧
        s'.node right = { s.node right with parent := s.fresh }) := by
  have made : s.makeNl.1.node s.fresh =
      { s.node s.fresh with isLeaf := false, numKeys := 0, parent := null, next := null } := by
    simp [IndexBtree.makeNl, IndexBtree.makeNode, IndexBtree.setNode]
  have others (x : Ptr) (hx : x ≠ s.fresh) : s.makeNl.1.node x = s.node x := by
    change Function.update (Function.update s.node s.fresh _) s.fresh _ x = _
    rw [Function.update_of_ne hx, Function.update_of_ne hx]
  unfold IndexBtree.insertIntoNewRoot
  rw [show s.makeNl = (s.makeNl.1, s.fresh) from rfl]
  dsimp only
  rw [made, storeKey_of_lt _ (by omega)]
  simp only [Option.bind_eq_bind, Option.bind_some]
  rw [storePointer_of_lt _ (by omega)]
  simp only [Option.bind_some]
  rw [storePointer_of_lt _ (by omega)]
  simp only [Option.bind_some]
  rw [if_pos (by omega)]
  refine ⟨_, rfl, rfl, rfl, rfl, ?_, ?_, fun x h₁ h₂ h₃ => ?_, fun ne old old' => ⟨?_, ?_, ?_⟩⟩
  all_goals simp only [IndexBtree.setNode, Function.update_apply]
  · simp only [if_true]
    split_ifs <;> rfl
  · simp only [if_true]
    split_ifs <;> rfl
  · simp [h₁, h₂, h₃, others x h₁]
  · simp [old.symm, old'.symm]
  · simp [ne, old, others left old]
  · simp [ne.symm, old', others right old']

/-! ### The entries of the two parts -/

/-- A new key at its place keeps the keys in order. -/
theorem sorted_place {keys : List Key} {key : Key} (sorted : keys.Pairwise (· < ·))
    (new : key ∉ keys) : (keys.insertIdx (place keys key) key).Pairwise (· < ·) := by
  induction keys with
  | nil => exact List.pairwise_singleton ..
  | cons k keys ih =>
    obtain ⟨ne, new⟩ : key ≠ k ∧ key ∉ keys := by simpa using new
    obtain ⟨first, rest⟩ := List.pairwise_cons.mp sorted
    unfold place
    rw [List.findIdx_cons]
    by_cases lt : k < key
    · simp only [lt, not_true_eq_false, decide_false, cond_false]
      rw [List.insertIdx_succ_cons]
      refine List.pairwise_cons.mpr ⟨fun x hx => ?_, ih rest new⟩
      rcases List.eq_or_mem_of_mem_insertIdx hx with rfl | hx
      · exact lt
      · exact first x hx
    · simp only [lt, not_false_eq_true, decide_true, cond_true]
      rw [List.insertIdx_zero]
      refine List.pairwise_cons.mpr ⟨fun x hx => ?_, sorted⟩
      have before : key < k := Nat.lt_of_le_of_ne (Nat.le_of_not_lt lt) ne
      rcases List.mem_cons.mp hx with rfl | hx
      · exact before
      · exact Nat.lt_trans before (first x hx)

theorem zip_insertIdx {α β : Type} (l : List α) (l' : List β) (i : Nat) (a : α) (b : β)
    (same : l.length = l'.length) :
    (l.insertIdx i a).zip (l'.insertIdx i b) = (l.zip l').insertIdx i (a, b) := by
  induction l generalizing l' i with
  | nil =>
    cases l' with
    | nil => cases i <;> simp
    | cons y l' => cases same
  | cons x l ih =>
    cases l' with
    | nil => cases same
    | cons y l' =>
      cases i with
      | zero => simp
      | succ i =>
        rw [List.insertIdx_succ_cons, List.insertIdx_succ_cons, List.zip_cons_cons, List.zip_cons_cons,
          List.insertIdx_succ_cons, ih _ _ (Nat.succ.inj same)]

/-- **Splits lose and reorder nothing**. A full leaf and its new neighbour have exactly the old
entries and the new one, in ascending order, and the first key of the neighbour is passed up.
Two inner nodes with the promoted key between them have the old keys and children with the new
ones at their places, and every child names the node that has it now. No array is accessed
outside of its bounds, and no assertion fails. -/
theorem splits_keep_order (two : 2 ≤ order) (s : IndexBtree) :
    (∀ leaf key item, leaf ≠ s.fresh → (s.node leaf).numKeys = order - 1 →
      (s.keysOf leaf).Pairwise (· < ·) → key ∉ s.keysOf leaf →
      ∃ s' newKey, s.splitLf order leaf key item = some (s', newKey, s.fresh) ∧
        (s'.entries leaf ++ s'.entries s.fresh).Perm ((key, item) :: s.entries leaf) ∧
        ((s'.entries leaf ++ s'.entries s.fresh).map Prod.fst).Pairwise (· < ·) ∧
        (s'.keysOf s.fresh).head? = some newKey ∧
        (s'.node leaf).numKeys = cut (order - 1) ∧
        (s'.node s.fresh).numKeys = order - cut (order - 1) ∧
        s.splitLfInsert order leaf key item =
          IndexBtree.insertIntoParent order exListSize s' leaf newKey s.fresh) ∧
    ∀ oldNode i key right, oldNode ≠ s.fresh → (s.node oldNode).isLeaf = false →
      (s.node oldNode).numKeys = order - 1 → i ≤ order - 1 →
      ((s.childrenOf oldNode).insertIdx (i + 1) right).Nodup →
      (∀ p, p ∈ s.childrenOf oldNode ∨ p = right →
        p ≠ oldNode ∧ p ≠ s.fresh ∧ (s.node p).parent = oldNode) →
      ∃ s' kPrime, s.splitNl order oldNode i key right = some (s', kPrime, s.fresh) ∧
        s'.keysOf oldNode ++ kPrime :: s'.keysOf s.fresh = (s.keysOf oldNode).insertIdx i key ∧
        s'.childrenOf oldNode ++ s'.childrenOf s.fresh =
          (s.childrenOf oldNode).insertIdx (i + 1) right ∧
        (∀ p ∈ s'.childrenOf oldNode, (s'.node p).parent = oldNode) ∧
        ∀ p ∈ s'.childrenOf s.fresh, (s'.node p).parent = s.fresh := by
  constructor
  · -- a leaf
    intro leaf key item old full sorted new
    obtain ⟨s', newKey, run, split⟩ := splitLf_spec key item two old full
    have keys : s.keysOf leaf = cells (s.node leaf).keys (order - 1) := by
      rw [IndexBtree.keysOf, full]
    have length : (s.keysOf leaf).length = order - 1 := by rw [keys, length_cells]
    rw [← keys] at split
    have leafKeys : s'.keysOf leaf ++ s'.keysOf s.fresh =
        (s.keysOf leaf).insertIdx (place (s.keysOf leaf) key) key := by
      rw [IndexBtree.keysOf, IndexBtree.keysOf, split.keys, split.keysRight, List.take_append_drop]
    -- the pairs of the two leaves, one after the other, are those with the new pair in its place
    have entries : s'.entries leaf ++ s'.entries s.fresh =
        (s.entries leaf).insertIdx (place (s.keysOf leaf) key) (key, item) := by
      unfold IndexBtree.entries
      rw [← List.zip_append (by rw [IndexBtree.keysOf, length_cells, length_cells]), leafKeys,
        split.pointers, split.pointersRight, List.take_append_drop, full,
        zip_insertIdx _ _ _ _ _ (by rw [length, length_cells])]
    refine ⟨s', newKey, run, ?_, ?_, ?_, split.numKeys, split.numKeysRight, ?_⟩
    · rw [entries]
      apply List.perm_insertIdx
      unfold IndexBtree.entries
      rw [List.length_zip, length, length_cells, full, Nat.min_self, ← length]
      exact place_le ..
    · have fst (a : Ptr) : (s'.entries a).map Prod.fst = s'.keysOf a := by
        apply List.map_fst_zip
        apply Nat.le_of_eq
        rw [IndexBtree.keysOf, length_cells, length_cells]
      rw [List.map_append, fst, fst, leafKeys]
      exact sorted_place sorted new
    · rw [IndexBtree.keysOf, split.keysRight]
      exact split.head
    · unfold IndexBtree.splitLfInsert
      rw [run]
      rfl
  · -- an inner node, seen as a cell of its level
    intro oldNode i key right old inner full le nodup children
    let c : Cell := ⟨oldNode, 0, s.keysOf oldNode, s.childrenOf oldNode⟩
    have length : (s.keysOf oldNode).length = order - 1 := by
      rw [IndexBtree.keysOf, length_cells, full]
    have arity : (s.childrenOf oldNode).length = (s.keysOf oldNode).length + 1 := by
      rw [IndexBtree.childrenOf, length_cells, full, length]
    have holds : c.Holds order s false := by
      refine Cell.holds_of rfl inner (full.trans length.symm) rfl ?_ arity (Nat.le_of_eq length)
      change cells (s.node oldNode).pointers (s.childrenOf oldNode).length = _
      rw [arity, length, ← full]
      rfl
    have mem (p : Ptr) (hp : p ∈ (c.insert i key right).pointers) :
        p ∈ s.childrenOf oldNode ∨ p = right := (List.eq_or_mem_of_mem_insertIdx hp).symm
    obtain ⟨s', kPrime, run, split⟩ := splitNl_spec key right two holds length
      (Nat.le_trans le (Nat.le_of_eq length.symm)) old
      fun p hp => ⟨(children p (mem p hp)).1, (children p (mem p hp)).2.1⟩
    have apart := nodup
    rw [← List.take_append_drop (cut order) ((s.childrenOf oldNode).insertIdx (i + 1) right)] at apart
    refine ⟨s', kPrime, run, ?_, ?_, ?_, ?_⟩
    · obtain ⟨lt, middle⟩ := List.getElem?_eq_some_iff.mp split.middle
      have more := (cut_bounds two).1
      rw [show s'.keysOf oldNode = _ from split.left.keysOf,
        show s'.keysOf s.fresh = _ from split.right.keysOf]
      have drop := List.drop_eq_getElem_cons lt
      rw [middle, Nat.sub_add_cancel more] at drop
      change (c.insert i key right).keys.take _ ++ kPrime :: (c.insert i key right).keys.drop _ = _
      rw [← drop, List.take_append_drop]
      rfl
    · rw [show s'.childrenOf oldNode = _ from split.left.childrenOf,
        show s'.childrenOf s.fresh = _ from split.right.childrenOf]
      exact List.take_append_drop ..
    · intro p hp
      rw [show s'.childrenOf oldNode = _ from split.left.childrenOf] at hp
      obtain ⟨ne, ne', parent⟩ := children p (mem p (List.mem_of_mem_take hp))
      rw [split.others p ne ne', if_neg]
      · exact parent
      · intro behind
        exact (List.nodup_append.mp apart).2.2 p hp p behind rfl
    · intro p hp
      rw [show s'.childrenOf s.fresh = _ from split.right.childrenOf] at hp
      change p ∈ (c.insert i key right).pointers.drop (cut order) at hp
      obtain ⟨ne, ne', -⟩ := children p (mem p (List.mem_of_mem_drop hp))
      rw [split.others p ne ne', if_pos hp]

/-- A heap with a full node of order 16 at the address 1, whose children are at 10 to 25. -/
def fullNodeHeap (leaf : Bool) : IndexBtree :=
  ⟨1, fun a => if a = 1 then ⟨fun j => 10 + j, leaf, fun j => 2 * j, null, 15, null⟩
    else ⟨fun _ => null, !leaf, fun _ => 0, 1, 0, null⟩, 2, fun _ => null, fun _ => true⟩

/-- A full leaf and a full inner node are split at the fifth key. -/
theorem splits_keep_order_full :
    (∃ s' newKey, (fullNodeHeap true).splitLf 16 1 9 50 = some (s', newKey, 2) ∧
      ((s'.entries 1 ++ s'.entries 2).map Prod.fst).Pairwise (· < ·)) ∧
    ∃ s' kPrime, (fullNodeHeap false).splitNl 16 1 5 9 50 = some (s', kPrime, 2) ∧
      s'.keysOf 1 ++ kPrime :: s'.keysOf 2 = ((fullNodeHeap false).keysOf 1).insertIdx 5 9 := by
  constructor
  · obtain ⟨s', newKey, run, -, sorted, -⟩ := (splits_keep_order (show 2 ≤ 16 by decide)
      (fullNodeHeap true)).1 1 9 50 (by decide) rfl (by decide) (by decide)
    exact ⟨s', newKey, run, sorted⟩
  · obtain ⟨s', kPrime, run, keys, -⟩ := (splits_keep_order (show 2 ≤ 16 by decide)
      (fullNodeHeap false)).2 1 5 9 50 (by decide) rfl rfl (by decide) (by decide) (by
        intro p hp
        have far : 10 ≤ p := by
          rcases hp with mem | rfl
          · obtain ⟨j, -, rfl⟩ := List.mem_map.mp mem
            exact Nat.le_add_right 10 j
          · decide
        have ne (q : Nat) (lt : q < 10) : p ≠ q := Nat.ne_of_gt (Nat.lt_of_lt_of_le lt far)
        refine ⟨ne 1 (by decide), ne 2 (by decide), ?_⟩
        change (if p = 1 then _ else _ : BtNode).parent = 1
        rw [if_neg (ne 1 (by decide))])
    exact ⟨s', kPrime, run, keys⟩

end DBx1000.Btree
