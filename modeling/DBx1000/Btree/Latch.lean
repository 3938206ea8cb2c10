import DBx1000.Btree.Split
import DBx1000.System.Global

/-!
# The search with latches

`find_leaf` with `ENABLE_LATCH` on. A node has a latch that threads share or one of them has
alone. The search goes down hand over hand; an insertion keeps the nodes above a full child, with
exclusive latches, up to `last_ex`, and gives them back in `cleanup`, which walks over parent
pointers.

What the other threads have of the latch of a node is arbitrary at each call of `latch_node`,
`upgrade_latch` and `release_latch`, so each of the first two succeeds or fails in any pattern.
Beside the latch of a node stands what the thread itself has of it. A run has no result if one
of the assertions on latches fails, if the thread gives back or upgrades a latch that it does not
have, or if it takes one twice. Two assertions are taken to hold, so that every result is that of
a search which they let pass: the inner nodes on its way are in the partition of the tree, and no
thread counts as sharing a node that none has latched, though `make_node` does not set its count.

## Main result

`find_leaf_spec`: on every tree the search returns, and has given back every latch if it aborts; if
it does not, it holds the leaf, and for an insertion the path up to `last_ex` that a split needs.

## Proof strategy

By induction on the height of the node that the search is at. The nodes that it holds above are
on the walk over parent pointers, they are higher in the tree, and the node and those on the walk
below `last_ex` are full.
-/

namespace DBx1000.Btree

open Shift

/-- `latch_t`. -/
inductive LatchT
  | LATCH_EX
  | LATCH_SH
  | LATCH_NONE
  deriving DecidableEq

/-- `latch_type` and `share_cnt` of a `bt_node`. -/
structure Latch where
  latchType : LatchT
  shareCnt : Nat
  deriving DecidableEq

namespace Latch

/-- `latch_node`, which works under the flag `latch` of the node. -/
def latchNode (l : Latch) (type : LatchT) : Option (Latch × Bool) :=
  if l.latchType = .LATCH_NONE ∨ l.latchType = .LATCH_SH ∧ type = .LATCH_SH then
    if l.latchType = .LATCH_NONE ∧ l.shareCnt ≠ 0 then none
    else some (⟨type, if type = .LATCH_SH then l.shareCnt + 1 else l.shareCnt⟩, true)
  else some (l, false)

/-- `release_latch`. -/
def releaseLatch (l : Latch) : Option Latch :=
  match l.latchType with
  | .LATCH_NONE => none
  | .LATCH_EX => some { l with latchType := .LATCH_NONE }
  | .LATCH_SH =>
    some ⟨if l.shareCnt - 1 = 0 then .LATCH_NONE else .LATCH_SH, l.shareCnt - 1⟩

/-- `upgrade_latch`. -/
def upgradeLatch (l : Latch) : Option (Latch × Bool) :=
  if l.latchType ≠ .LATCH_SH then none
  else if l.shareCnt > 1 then some (l, false)
  else some (⟨.LATCH_EX, 0⟩, true)

end Latch

/-- What the other threads have of a latch: some of them share it, or one has it alone. -/
inductive Others
  | shared (count : Nat)
  | exclusive

/-- The latch of a node of which the thread has `own`. While it has an exclusive latch the others
have nothing, and while it has a shared one none of them has an exclusive one. -/
def Others.latch : LatchT → Others → Latch
  | .LATCH_EX, _ => ⟨.LATCH_EX, 0⟩
  | .LATCH_SH, .shared count => ⟨.LATCH_SH, count + 1⟩
  | .LATCH_SH, .exclusive => ⟨.LATCH_SH, 1⟩
  | .LATCH_NONE, .shared 0 => ⟨.LATCH_NONE, 0⟩
  | .LATCH_NONE, .shared (count + 1) => ⟨.LATCH_SH, count + 1⟩
  | .LATCH_NONE, .exclusive => ⟨.LATCH_EX, 0⟩

/-- What the thread has of each latch, and the number of its calls so far. -/
structure Latching where
  own : Ptr → LatchT
  calls : Nat

namespace Latching

variable (others : Nat → Others) (l : Latching)

def set (a : Ptr) (type : LatchT) : Latching :=
  ⟨Function.update l.own a type, l.calls + 1⟩

/-- The latch that the next call finds. -/
def found (a : Ptr) : Latch := (others l.calls).latch (l.own a)

def latchNode (a : Ptr) (type : LatchT) : Option (Latching × Bool) :=
  if l.own a = .LATCH_NONE then
    ((l.found others a).latchNode type).map fun (_, ok) =>
      (l.set a (if ok then type else .LATCH_NONE), ok)
  else none

def releaseLatch (a : Ptr) : Option Latching :=
  if l.own a = .LATCH_NONE then none
  else (l.found others a).releaseLatch.map fun _ => l.set a .LATCH_NONE

def upgradeLatch (a : Ptr) : Option (Latching × Bool) :=
  if l.own a = .LATCH_SH then
    (l.found others a).upgradeLatch.map fun (_, ok) =>
      (l.set a (if ok then .LATCH_EX else .LATCH_SH), ok)
  else none

end Latching

/-- What `find_leaf` returns and assigns, with the latches that the thread has then. -/
structure Found where
  rc : RC
  leaf : Ptr
  lastEx : Ptr
  latching : Latching

namespace IndexBtree

variable (order : Nat) (s : IndexBtree) (others : Nat → Others)

/-- The loop of `cleanup` up to `last_ex`, in at most so many rounds. -/
def cleanupLatched (lastEx : Ptr) : Nat → Ptr → Latching → Option Latching
  | 0, _, _ => none
  | rounds + 1, a, l =>
    if a = null ∨ (s.node a).parent = null then none
    else do
      let a := (s.node a).parent
      let l ← l.releaseLatch others a
      if a = lastEx then some l else cleanupLatched lastEx rounds a l

/-- `cleanup`. -/
def cleanupPath (limit : Nat) (lastEx a : Ptr) (l : Latching) : Option Latching :=
  if lastEx ≠ null then s.cleanupLatched others lastEx limit a l else some l

/-- The loop of `find_leaf`, with the rounds that are left; `limit` is for those of `cleanup`. -/
def findLeafLatchedFrom (accessType : IdxAcc) (key : Key) (limit : Nat) :
    Nat → Ptr → Ptr → Latching → Option Found
  | 0, _, _, _ => none
  | rounds + 1, c, lastEx, l => do
    let n := s.node c
    if n.isLeaf then
      if accessType = .INDEX_INSERT then
        let (l, ok) ← l.upgradeLatch others c
        if ok then some ⟨.RCOK, c, lastEx, l⟩
        else do
          let l ← l.releaseLatch others c
          let l ← s.cleanupPath others limit lastEx c l
          some ⟨.Abort, null, lastEx, l⟩
      else some ⟨.RCOK, c, lastEx, l⟩
    else do
      let i ← n.scan order (fun k => key < k) n.numKeys 0
      let child ← n.loadPointer order i
      let (l, ok) ← l.latchNode others child .LATCH_SH
      if ok then
        if accessType = .INDEX_INSERT then
          if (s.node child).numKeys = order - 1 then do
            let (l, ok) ← l.upgradeLatch others c
            if ok then
              let lastEx := if lastEx = null then c else lastEx
              findLeafLatchedFrom accessType key limit rounds child lastEx l
            else do
              let l ← l.releaseLatch others c
              let l ← l.releaseLatch others child
              let l ← s.cleanupPath others limit lastEx c l
              some ⟨.Abort, null, null, l⟩
          else do
            let l ← s.cleanupPath others limit lastEx c l
            let l ← l.releaseLatch others c
            findLeafLatchedFrom accessType key limit rounds child null l
        else do
          let l ← l.releaseLatch others c
          findLeafLatchedFrom accessType key limit rounds child lastEx l
      else do
        let l ← l.releaseLatch others c
        let l ← s.cleanupPath others limit lastEx c l
        some ⟨.Abort, null, null, l⟩

/-- `find_leaf` of a thread that has no latch, with at most so many rounds for each of its loops;
the leaf is NULL before it. -/
def findLeafLatched (key : Key) (accessType : IdxAcc) (limit : Nat) : Option Found := do
  let (l, ok) ← (Latching.mk (fun _ => .LATCH_NONE) 0).latchNode others s.root .LATCH_SH
  if ok then s.findLeafLatchedFrom order others accessType key limit limit s.root null l
  else some ⟨.Abort, null, null, l⟩

end IndexBtree

/-! ### Latches of the thread -/

/-- Shared latches and exclusive ones. -/
def held (sh ex : List Ptr) (x : Ptr) : LatchT :=
  if x ∈ sh then .LATCH_SH else if x ∈ ex then .LATCH_EX else .LATCH_NONE

section Latches

variable (others : Nat → Others) {l : Latching} {a : Ptr} {sh ex : List Ptr}

/-- No other thread has a latch. -/
def Alone (others : Nat → Others) : Prop := ∀ n, others n = .shared 0

theorem set_own_eq {type : LatchT} {own : Ptr → LatchT} (at_ : own a = type)
    (elsewhere : ∀ x, x ≠ a → l.own x = own x) : (l.set a type).own = own := by
  funext x
  change Function.update l.own a type x = own x
  by_cases e : x = a
  · rw [e, Function.update_self, at_]
  · rw [Function.update_of_ne e, elsewhere x e]

/-- `latch_node` for a shared latch fails on an exclusive one, and does nothing then. -/
theorem latchNode_spec (own : l.own = held sh ex) (new : a ∉ sh) (new' : a ∉ ex) :
    ∃ l' ok, l.latchNode others a .LATCH_SH = some (l', ok) ∧
      l'.own = held (if ok then a :: sh else sh) ex ∧ (Alone others → ok = true) := by
  have none : l.own a = .LATCH_NONE := by rw [own, held, if_neg new, if_neg new']
  unfold Latching.latchNode Latching.found
  rw [if_pos none, none]
  cases found : others l.calls with
  | shared count =>
    refine ⟨l.set a .LATCH_SH, true, ?_, ?_, fun _ => rfl⟩
    · cases count <;> rfl
    · exact set_own_eq (by simp [held]) fun x e => by simp [own, held, e]
  | exclusive =>
    refine ⟨l.set a .LATCH_NONE, false, rfl, ?_, fun alone => ?_⟩
    · exact set_own_eq (by simp [held, new, new']) fun x _ => by simp [own]
    · rw [alone] at found
      cases found

theorem releaseLatch_spec (some_ : l.own a ≠ .LATCH_NONE) :
    l.releaseLatch others a = some (l.set a .LATCH_NONE) := by
  unfold Latching.releaseLatch Latching.found
  rw [if_neg some_]
  cases own : l.own a with
  | LATCH_NONE => exact absurd own some_
  | LATCH_EX => rfl
  | LATCH_SH => cases others l.calls <;> rfl

theorem releaseLatch_shared (own : l.own = held (a :: sh) ex) (new : a ∉ sh) (new' : a ∉ ex) :
    ∃ l', l.releaseLatch others a = some l' ∧ l'.own = held sh ex := by
  refine ⟨l.set a .LATCH_NONE, releaseLatch_spec others (by simp [own, held]), ?_⟩
  exact set_own_eq (by simp [held, new, new']) fun x e => by simp [own, held, e]

theorem releaseLatch_exclusive (own : l.own = held sh (a :: ex)) (new : a ∉ sh) (new' : a ∉ ex) :
    ∃ l', l.releaseLatch others a = some l' ∧ l'.own = held sh ex := by
  refine ⟨l.set a .LATCH_NONE, releaseLatch_spec others (by simp [own, held, new]), ?_⟩
  exact set_own_eq (by simp [held, new, new']) fun x e => by simp [own, held, e]

/-- `upgrade_latch` fails if the latch is shared, which it stays then. -/
theorem upgradeLatch_spec (own : l.own = held (a :: sh) ex) (new : a ∉ sh) :
    ∃ l' ok, l.upgradeLatch others a = some (l', ok) ∧
      l'.own = (if ok then held sh (a :: ex) else held (a :: sh) ex) ∧
        (Alone others → ok = true) := by
  have mine : l.own a = .LATCH_SH := by simp [own, held]
  have kept : (l.set a .LATCH_SH).own = held (a :: sh) ex :=
    set_own_eq (by simp [held]) fun x _ => by rw [own]
  have raised : (l.set a .LATCH_EX).own = held sh (a :: ex) :=
    set_own_eq (by simp [held, new]) fun x e => by simp [own, held, e]
  unfold Latching.upgradeLatch Latching.found
  rw [if_pos mine, mine]
  cases found : others l.calls with
  | shared count =>
    cases count with
    | zero => exact ⟨l.set a .LATCH_EX, true, rfl, raised, fun _ => rfl⟩
    -- another call shares the latch, so it is kept as it is
    | succ count =>
      refine ⟨l.set a .LATCH_SH, false, ?_, kept, fun alone => ?_⟩
      · simp [Others.latch, Latch.upgradeLatch]
      · -- a call that is alone finds no such latch
        rw [alone] at found
        cases found
  | exclusive => exact ⟨l.set a .LATCH_EX, true, rfl, raised, fun _ => rfl⟩

theorem held_swap {a b : Ptr} : held (a :: b :: sh) ex = held (b :: a :: sh) ex := by
  funext x
  simp only [held, List.mem_cons, or_left_comm]

end Latches

/-! ### Trees -/

variable {order : Nat} {s : IndexBtree}

/-- A tree of a height, with the right parents. -/
def Subtree (order : Nat) (s : IndexBtree) : Nat → Ptr → Prop
  | 0, a => a ≠ null ∧ a < s.fresh ∧ (s.node a).numKeys ≤ order - 1 ∧ (s.node a).isLeaf = true
  | h + 1, a => a ≠ null ∧ a < s.fresh ∧ (s.node a).numKeys ≤ order - 1 ∧
    (s.node a).isLeaf = false ∧ 0 < (s.node a).numKeys ∧ (s.childrenOf a).Nodup ∧
      ∀ p ∈ s.childrenOf a, (s.node p).parent = a ∧ Subtree order s h p

/-- The tree of the index. -/
structure IsTree (order : Nat) (s : IndexBtree) (height : Nat) : Prop where
  root : Subtree order s height s.root
  parent : (s.node s.root).parent = null

namespace Subtree

variable {h k : Nat} {a : Ptr}

theorem ne_null (tree : Subtree order s h a) : a ≠ null := by
  cases h <;> exact tree.1

theorem lt_fresh (tree : Subtree order s h a) : a < s.fresh := by
  cases h <;> exact tree.2.1

theorem few (tree : Subtree order s h a) : (s.node a).numKeys ≤ order - 1 := by
  cases h <;> exact tree.2.2.1

theorem isLeaf (tree : Subtree order s h a) : (s.node a).isLeaf = decide (h = 0) := by
  cases h with
  | zero => exact tree.2.2.2
  | succ h => exact tree.2.2.2.1

theorem child (tree : Subtree order s (h + 1) a) {p : Ptr} (mem : p ∈ s.childrenOf a) :
    (s.node p).parent = a ∧ Subtree order s h p :=
  tree.2.2.2.2.2.2 p mem

theorem first_mem (a : Ptr) : (s.node a).pointers 0 ∈ s.childrenOf a :=
  List.mem_map.mpr ⟨0, List.mem_range.mpr (Nat.succ_pos _), rfl⟩

/-- A node has one height. -/
theorem height_unique (tree : Subtree order s h a) (tree' : Subtree order s k a) : h = k := by
  induction h generalizing k a with
  | zero =>
    have leaf := tree'.isLeaf
    rw [tree.isLeaf] at leaf
    exact (of_decide_eq_true leaf.symm).symm
  | succ h ih =>
    cases k with
    | zero =>
      have leaf := tree'.isLeaf
      rw [tree.isLeaf] at leaf
      simp at leaf
    | succ k => rw [ih (tree.child (first_mem a)).2 (tree'.child (first_mem a)).2]

end Subtree

/-- A search for a key that is at a node ends at a leaf. -/
inductive LeafFor (s : IndexBtree) (key : Key) : Ptr → Ptr → Prop
  | leaf {a : Ptr} : (s.node a).isLeaf = true → LeafFor s key a a
  | inner {a leaf : Ptr} : (s.node a).isLeaf = false → LeafFor s key (s.childFor a key) leaf →
    LeafFor s key a leaf

theorem childFor_mem (a : Ptr) (key : Key) : s.childFor a key ∈ s.childrenOf a := by
  have le : ((s.keysOf a).findIdx fun k => key < k) ≤ (s.keysOf a).length := List.findIdx_le_length
  rw [IndexBtree.keysOf, length_cells] at le
  exact List.mem_map.mpr ⟨_, List.mem_range.mpr (Nat.lt_succ_of_le le), rfl⟩

/-- The loop over the keys of an inner node. -/
theorem childFor_spec (two : 2 ≤ order) {h : Nat} {a : Ptr} (tree : Subtree order s (h + 1) a)
    (key : Key) : ∃ i, (s.node a).scan order (fun k => key < k) (s.node a).numKeys 0 = some i ∧
      (s.node a).loadPointer order i = some (s.childFor a key) := by
  have few := tree.few
  refine ⟨_, scan_zero_eq _ few, ?_⟩
  have le : ((s.keysOf a).findIdx fun k => key < k) ≤ (s.keysOf a).length := List.findIdx_le_length
  rw [IndexBtree.keysOf, length_cells] at le
  exact loadPointer_of_lt (by omega)

/-! ### The walk over parent pointers -/

/-- The nodes that `cleanup` visits on its way from a node to `last_ex`. The nodes from which it
comes are full. -/
inductive Climb (order : Nat) (s : IndexBtree) (lastEx : Ptr) : Ptr → List Ptr → Prop
  | last {a : Ptr} : (s.node a).numKeys = order - 1 → (s.node a).parent = lastEx →
    Climb order s lastEx a [lastEx]
  | up {a : Ptr} {above : List Ptr} : (s.node a).numKeys = order - 1 →
    (s.node a).parent ≠ lastEx → Climb order s lastEx (s.node a).parent above →
    Climb order s lastEx a ((s.node a).parent :: above)

/-- The nodes above a node that a split of the node needs, up to `last_ex`, which is NULL if there
are none. -/
def SplitPath (order : Nat) (s : IndexBtree) (lastEx c : Ptr) (above : List Ptr) : Prop :=
  lastEx = null ∧ above = [] ∧ (c = s.root ∨ (s.node c).numKeys ≠ order - 1) ∨
    lastEx ≠ null ∧ Climb order s lastEx c above

section Cleanup

variable (others : Nat → Others) {l : Latching} {lastEx c : Ptr} {above sh : List Ptr}
  {limit : Nat}

theorem cleanupLatched_spec (climb : Climb order s lastEx c above) (node : c ≠ null) (nodup : above.Nodup)
    (apart : ∀ x ∈ above, x ∉ sh) (nodes : ∀ x ∈ above, x ≠ null) (own : l.own = held sh above)
    (enough : above.length ≤ limit) :
    ∃ l', s.cleanupLatched others lastEx limit c l = some l' ∧ l'.own = held sh [] := by
  -- the climb ends at `lastEx`, which the loop finds by the parents
  induction climb generalizing l limit with
  | last _ is =>
    obtain ⟨limit, rfl⟩ : ∃ k, limit = k + 1 := ⟨limit - 1, by simp at enough; omega⟩
    obtain ⟨l', released, own⟩ := releaseLatch_exclusive others own (apart _ (by simp))
      (by simp)
    refine ⟨l', ?_, own⟩
    have known := nodes _ (List.mem_singleton_self lastEx)
    unfold IndexBtree.cleanupLatched
    rw [is, if_neg (not_or.mpr ⟨node, known⟩)]
    simp [released]
  | up _ more _ ih =>
    obtain ⟨limit, rfl⟩ : ∃ k, limit = k + 1 := ⟨limit - 1, by simp at enough; omega⟩
    obtain ⟨new, nodup⟩ := List.nodup_cons.mp nodup
    obtain ⟨l', released, own⟩ := releaseLatch_exclusive others own (apart _ (by simp))
      new
    have known := nodes _ List.mem_cons_self
    obtain ⟨l'', rest, own⟩ := ih known nodup (fun x mem => apart x (List.mem_cons_of_mem _ mem))
      (fun x mem => nodes x (List.mem_cons_of_mem _ mem)) own (by simpa using enough)
    refine ⟨l'', ?_, own⟩
    unfold IndexBtree.cleanupLatched
    rw [if_neg (not_or.mpr ⟨node, known⟩)]
    simp [released, more, rest]

/-- `cleanup` gives back what an insertion holds above a node. -/
theorem cleanupPath_spec (path : SplitPath order s lastEx c above) (node : c ≠ null) (nodup : above.Nodup)
    (apart : ∀ x ∈ above, x ∉ sh) (nodes : ∀ x ∈ above, x ≠ null) (own : l.own = held sh above)
    (enough : above.length ≤ limit) :
    ∃ l', s.cleanupPath others limit lastEx c l = some l' ∧ l'.own = held sh [] := by
  unfold IndexBtree.cleanupPath
  rcases path with ⟨is, rfl, -⟩ | ⟨ne, climb⟩
  · rw [if_neg (not_not.mpr is)]
    exact ⟨l, rfl, own⟩
  · rw [if_pos ne]
    exact cleanupLatched_spec others climb node nodup apart nodes own enough

end Cleanup

/-! ### The search -/

/-- Nothing is held if the search aborts. If it does not, the thread has the latch of the leaf for
the key, and what an insertion needs above it. -/
structure Balanced (order : Nat) (s : IndexBtree) (key : Key) (accessType : IdxAcc) (c : Ptr)
    (r : Found) : Prop where
  abort : r.rc = .Abort → r.latching.own = held [] []
  leaf : r.rc = .RCOK → LeafFor s key c r.leaf
  read : r.rc = .RCOK → accessType = .INDEX_READ → r.latching.own = held [r.leaf] []
  insert : r.rc = .RCOK → accessType = .INDEX_INSERT →
    ∃ above, SplitPath order s r.lastEx r.leaf above ∧ (∀ x ∈ above, (s.node x).isLeaf = false) ∧
      r.latching.own = held [] (r.leaf :: above)

section Search

variable (others : Nat → Others) (key : Key) {l : Latching} {c lastEx : Ptr} {h rounds limit : Nat}

/-- A read holds one node, and its child when it goes on. -/
theorem find_read_spec (two : 2 ≤ order) (tree : Subtree order s h c) (own : l.own = held [c] [])
    (enough : h < rounds) :
    ∃ r, s.findLeafLatchedFrom order others .INDEX_READ key limit rounds c null l = some r ∧
      Balanced order s key .INDEX_READ c r ∧ (Alone others → r.rc = .RCOK) := by
  obtain ⟨rounds, rfl⟩ : ∃ k, rounds = k + 1 := ⟨rounds - 1, by omega⟩
  induction h generalizing c l rounds with
  | zero =>
    have isLeaf : (s.node c).isLeaf = true := tree.isLeaf
    refine ⟨⟨.RCOK, c, null, l⟩, ?_, ⟨nofun, fun _ => .leaf isLeaf, fun _ _ => own, nofun⟩,
      fun _ => rfl⟩
    simp [IndexBtree.findLeafLatchedFrom, isLeaf]
  | succ h ih =>
    have isLeaf : (s.node c).isLeaf = false := tree.isLeaf
    obtain ⟨i, scanned, loaded⟩ := childFor_spec two tree key
    obtain ⟨-, below⟩ := tree.child (childFor_mem c key)
    have ne : s.childFor c key ≠ c := fun same => by
      have := (same ▸ below).height_unique tree
      omega
    obtain ⟨l₁, ok, latched, own₁, alone⟩ := latchNode_spec others (a := s.childFor c key) own (by simpa using ne) (by simp)
    cases ok with
    -- the child cannot be latched: the latch of the node is given back
    | false =>
      obtain ⟨l₂, released, own₂⟩ := releaseLatch_shared others own₁ (by simp) (by simp)
      refine ⟨⟨.Abort, null, null, l₂⟩, ?_, ⟨fun _ => own₂, nofun, nofun, nofun⟩,
        fun h => nomatch alone h⟩
      simp [IndexBtree.findLeafLatchedFrom, isLeaf, scanned, loaded, latched, released,
        IndexBtree.cleanupPath]
    -- both are latched, and then the child alone
    | true =>
      rw [if_pos rfl, held_swap] at own₁
      obtain ⟨l₂, released, own₂⟩ := releaseLatch_shared others own₁
        (by simpa using ne.symm) (by simp)
      obtain ⟨rounds, rfl⟩ : ∃ k, rounds = k + 1 := ⟨rounds - 1, by omega⟩
      obtain ⟨r, run, balanced, finds⟩ := ih below own₂ rounds (by omega)
      refine ⟨r, ?_, ⟨balanced.abort, fun ok => .inner isLeaf (balanced.leaf ok), balanced.read,
        nofun⟩, finds⟩
      rw [← run, IndexBtree.findLeafLatchedFrom]
      simp [isLeaf, scanned, loaded, latched, released]

/-- An insertion at a node: it has a shared latch there and exclusive ones above. -/
structure Coupled (order : Nat) (s : IndexBtree) (limit h : Nat) (c lastEx : Ptr)
    (above : List Ptr) (l : Latching) : Prop where
  tree : Subtree order s h c
  path : SplitPath order s lastEx c above
  nodup : above.Nodup
  higher : ∀ x ∈ above, ∃ k, h < k ∧ Subtree order s k x
  own : l.own = held [c] above
  room : above.length + h ≤ limit

theorem Climb.last_mem {above : List Ptr} (climb : Climb order s lastEx c above) :
    lastEx ∈ above := by
  induction climb with
  | last => exact List.mem_singleton_self _
  | up _ _ _ ih => exact List.mem_cons_of_mem _ ih

namespace Coupled

variable {above : List Ptr}

/-- The nodes above are higher in the tree. -/
theorem not_mem_above (at_ : Coupled order s limit h c lastEx above l) {k : Nat} {p : Ptr}
    (tree : Subtree order s k p) (le : k ≤ h) : p ∉ above := fun mem => by
  obtain ⟨k', higher, tree'⟩ := at_.higher p mem
  have := tree.height_unique tree'
  omega

theorem ne_null (at_ : Coupled order s limit h c lastEx above l) :
    ∀ x ∈ above, x ≠ null := fun x mem => by
  obtain ⟨k, -, tree⟩ := at_.higher x mem
  exact tree.ne_null

theorem inner (at_ : Coupled order s limit h c lastEx above l) :
    ∀ x ∈ above, (s.node x).isLeaf = false := fun x mem => by
  obtain ⟨k, higher, tree⟩ := at_.higher x mem
  rw [tree.isLeaf, decide_eq_false_iff_not]
  omega

/-- The end of an aborted search. -/
theorem cleanup (at_ : Coupled order s limit h c lastEx above l) {l' : Latching} {sh : List Ptr}
    (own : l'.own = held sh above) (apart : ∀ x ∈ above, x ∉ sh) :
    ∃ l'', s.cleanupPath others limit lastEx c l' = some l'' ∧ l''.own = held sh [] := by
  have room := at_.room
  exact cleanupPath_spec others at_.path at_.tree.ne_null at_.nodup apart at_.ne_null own (by omega)

/-- The search goes on at a full child. -/
theorem keep (at_ : Coupled order s limit (h + 1) c lastEx above l) {p : Ptr}
    (parent : (s.node p).parent = c) (tree : Subtree order s h p)
    (full : (s.node p).numKeys = order - 1) {l' : Latching} (own : l'.own = held [p] (c :: above)) :
    Coupled order s limit h p (if lastEx = null then c else lastEx) (c :: above) l' := by
  -- a node above stands higher in the tree
  have new : c ∉ above := at_.not_mem_above at_.tree (Nat.le_refl _)
  refine ⟨tree, .inr ?_, List.nodup_cons.mpr ⟨new, at_.nodup⟩, ?_, own, ?_⟩
  · rcases at_.path with ⟨is, rfl, -⟩ | ⟨ne, climb⟩
    · rw [if_pos is]
      exact ⟨at_.tree.ne_null, .last full parent⟩
    · rw [if_neg ne]
      -- the walk does not end before `last_ex`
      have more : (s.node p).parent ≠ lastEx := fun same =>
        new (by rw [← parent, same]; exact climb.last_mem)
      refine ⟨ne, ?_⟩
      rw [← parent] at climb ⊢
      exact .up full more climb
  · intro x mem
    rcases List.mem_cons.mp mem with rfl | mem
    · exact ⟨h + 1, Nat.lt_succ_self h, at_.tree⟩
    · obtain ⟨k, higher, tree⟩ := at_.higher x mem
      exact ⟨k, by omega, tree⟩
  · have room := at_.room
    rw [List.length_cons]
    omega

/-- The search goes on at a child that has room. -/
theorem drop {p : Ptr} (tree : Subtree order s h p) (space : (s.node p).numKeys ≠ order - 1)
    (le : h ≤ limit) {l' : Latching} (own : l'.own = held [p] []) :
    Coupled order s limit h p null [] l' :=
  ⟨tree, .inl ⟨rfl, rfl, .inr space⟩, List.nodup_nil, nofun, own, by simpa using le⟩

end Coupled

/-- An insertion holds a node and the nodes that a split of it needs. -/
theorem find_insert_spec (two : 2 ≤ order) {above : List Ptr}
    (at_ : Coupled order s limit h c lastEx above l) (enough : h < rounds) :
    ∃ r, s.findLeafLatchedFrom order others .INDEX_INSERT key limit rounds c lastEx l = some r ∧
      Balanced order s key .INDEX_INSERT c r ∧ (Alone others → r.rc = .RCOK) := by
  obtain ⟨rounds, rfl⟩ : ∃ k, rounds = k + 1 := ⟨rounds - 1, by omega⟩
  have new : c ∉ above := at_.not_mem_above at_.tree (Nat.le_refl _)
  induction h generalizing c lastEx above l rounds with
  | zero =>
    have isLeaf : (s.node c).isLeaf = true := at_.tree.isLeaf
    obtain ⟨l₁, ok, upgraded, own₁, alone⟩ := upgradeLatch_spec others at_.own (by simp)
    cases ok with
    -- the latch of the leaf has been upgraded
    | true =>
      refine ⟨⟨.RCOK, c, lastEx, l₁⟩, ?_, ⟨nofun, fun _ => .leaf isLeaf, nofun,
        fun _ _ => ⟨above, at_.path, at_.inner, own₁⟩⟩, fun _ => rfl⟩
      simp [IndexBtree.findLeafLatchedFrom, isLeaf, upgraded]
    -- it is shared, so all latches are given back
    | false =>
      obtain ⟨l₂, released, own₂⟩ := releaseLatch_shared others own₁ (by simp) new
      obtain ⟨l₃, cleaned, own₃⟩ := at_.cleanup others own₂ (by simp)
      refine ⟨⟨.Abort, null, lastEx, l₃⟩, ?_, ⟨fun _ => own₃, nofun, nofun, nofun⟩,
        fun h => nomatch alone h⟩
      simp [IndexBtree.findLeafLatchedFrom, isLeaf, upgraded, released, cleaned]
  | succ h ih =>
    have isLeaf : (s.node c).isLeaf = false := at_.tree.isLeaf
    have room := at_.room
    obtain ⟨i, scanned, loaded⟩ := childFor_spec two at_.tree key
    obtain ⟨parent, below⟩ := at_.tree.child (childFor_mem c key)
    have ne : s.childFor c key ≠ c := fun same => by
      have := (same ▸ below).height_unique at_.tree
      omega
    have new' : s.childFor c key ∉ above := at_.not_mem_above below (Nat.le_succ h)
    obtain ⟨rounds, rfl⟩ : ∃ k, rounds = k + 1 := ⟨rounds - 1, by omega⟩
    obtain ⟨l₁, ok, latched, own₁, alone⟩ := latchNode_spec others (a := s.childFor c key) at_.own (by simpa using ne) new'
    cases ok with
    -- the child cannot be latched: all latches are given back
    | false =>
      obtain ⟨l₂, released, own₂⟩ := releaseLatch_shared others own₁ (by simp) new
      obtain ⟨l₃, cleaned, own₃⟩ := at_.cleanup others own₂ (by simp)
      refine ⟨⟨.Abort, null, null, l₃⟩, ?_, ⟨fun _ => own₃, nofun, nofun, nofun⟩,
        fun h => nomatch alone h⟩
      simp [IndexBtree.findLeafLatchedFrom, isLeaf, scanned, loaded, latched, released, cleaned]
    | true =>
      rw [if_pos rfl] at own₁
      -- a full child is kept with all that is above it
      by_cases full : (s.node (s.childFor c key)).numKeys = order - 1
      · rw [held_swap] at own₁
        obtain ⟨l₂, ok, upgraded, own₂, alone⟩ := upgradeLatch_spec others own₁
          (by simpa using ne.symm)
        cases ok with
        | true =>
          have next := at_.keep parent below full own₂
          obtain ⟨r, run, balanced, finds⟩ := ih next rounds (by omega)
            (next.not_mem_above below (Nat.le_refl h))
          refine ⟨r, ?_, ⟨balanced.abort, fun ok => .inner isLeaf (balanced.leaf ok), nofun,
            balanced.insert⟩, finds⟩
          rw [← run, IndexBtree.findLeafLatchedFrom]
          simp [isLeaf, scanned, loaded, latched, full, upgraded]
        | false =>
          obtain ⟨l₃, first, own₃⟩ := releaseLatch_shared others own₂
            (by simpa using ne.symm) new
          obtain ⟨l₄, second, own₄⟩ := releaseLatch_shared others own₃ (by simp) new'
          obtain ⟨l₅, cleaned, own₅⟩ := at_.cleanup others own₄ (by simp)
          refine ⟨⟨.Abort, null, null, l₅⟩, ?_, ⟨fun _ => own₅, nofun, nofun, nofun⟩,
            fun h => nomatch alone h⟩
          simp [IndexBtree.findLeafLatchedFrom, isLeaf, scanned, loaded, latched, full, upgraded,
            first, second, cleaned]
      · -- the child has room: nothing above it is needed any more
        have apart : ∀ x ∈ above, x ∉ [s.childFor c key, c] := by
          intro x mem
          simp only [List.mem_cons, List.not_mem_nil, or_false, not_or]
          exact ⟨fun same => new' (same ▸ mem), fun same => new (same ▸ mem)⟩
        obtain ⟨l₂, cleaned, own₂⟩ := at_.cleanup others own₁ apart
        rw [held_swap] at own₂
        obtain ⟨l₃, released, own₃⟩ := releaseLatch_shared others own₂
          (by simpa using ne.symm) (by simp)
        obtain ⟨r, run, balanced, finds⟩ :=
          ih (Coupled.drop below full (by omega) own₃) rounds (by omega) (by simp)
        refine ⟨r, ?_, ⟨balanced.abort, fun ok => .inner isLeaf (balanced.leaf ok), nofun,
          balanced.insert⟩, finds⟩
        rw [← run, IndexBtree.findLeafLatchedFrom]
        simp [isLeaf, scanned, loaded, latched, full, cleaned, released]

/-- **The latches of `find_leaf` are balanced.** -/
theorem find_leaf_spec (two : 2 ≤ order) {height : Nat} (tree : IsTree order s height)
    (accessType : IdxAcc) (enough : height < limit) :
    ∃ r, s.findLeafLatched order others key accessType limit = some r ∧
      Balanced order s key accessType s.root r ∧ (Alone others → r.rc = .RCOK) := by
  -- no latch is held when the call starts
  have nothing : (fun _ : Ptr => LatchT.LATCH_NONE) = held [] [] := by
    funext x
    simp [held]
  obtain ⟨l, ok, latched, own, alone⟩ := latchNode_spec others (a := s.root)
    (l := ⟨fun _ => .LATCH_NONE, 0⟩) nothing List.not_mem_nil List.not_mem_nil
  unfold IndexBtree.findLeafLatched
  cases ok with
  | false =>
    refine ⟨⟨.Abort, null, null, l⟩, by simp [latched], ⟨fun _ => own, nofun, nofun, nofun⟩,
      fun h => nomatch alone h⟩
  | true =>
    rw [if_pos rfl] at own
    cases accessType with
    | INDEX_READ =>
      obtain ⟨r, run, balanced, finds⟩ := find_read_spec others key two tree.root own enough
      exact ⟨r, by simpa [latched] using run, balanced, finds⟩
    | INDEX_INSERT =>
      have start : Coupled order s limit height s.root null [] l :=
        ⟨tree.root, .inl ⟨rfl, rfl, .inl rfl⟩, List.nodup_nil, nofun, own, by simp; omega⟩
      obtain ⟨r, run, balanced, finds⟩ := find_insert_spec others key two start
        enough
      exact ⟨r, by simpa [latched] using run, balanced, finds⟩

end Search

end DBx1000.Btree
