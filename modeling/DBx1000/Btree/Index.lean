import Mathlib.Algebra.Order.Ring.Nat
import Mathlib.Logic.Function.Basic
import DBx1000.Library.Transition

/-!
# The B+-tree index

`index_btree` with latches disabled, for the calls into one partition: `latch_node`,
`upgrade_latch` and `release_latch` do nothing then, but the walks over parent pointers that go
with them stay.
Every access to the arrays of a node, and to the temporary arrays of a split, is checked against
their lengths, and a call whose check or assertion fails has no result.

Pointers are words, as `void *` in the source: a slot has an item in a leaf and a node
elsewhere. Nothing is assumed of the memory that the allocator returns, nor of the partition
that `get_part_id` takes from the page of an address; with one partition it is that one.
-/

namespace DBx1000.Btree

open Transition

abbrev Key := Nat
abbrev Ptr := Nat

def null : Ptr := 0

/-- `bt_node`, without its latch. -/
structure BtNode where
  pointers : Nat → Ptr
  isLeaf : Bool
  keys : Nat → Key
  parent : Ptr
  numKeys : Nat
  next : Ptr

/-- The index over a heap of nodes; the node at `fresh` is the next one to be allocated. -/
structure IndexBtree where
  root : Ptr
  node : Ptr → BtNode
  fresh : Ptr
  /-- The `next` field of an `itemid_t`. -/
  itemNext : Ptr → Ptr
  /-- Whether `get_part_id` of the node and of its keys is the partition of the tree. -/
  inPart : Ptr → Bool

inductive IdxAcc
  | INDEX_INSERT
  | INDEX_READ
  deriving DecidableEq

/-- The length of the list of latched nodes, which no tree is deep enough to fill. -/
def exListSize : Nat := 100

/-! ### The arrays of a node -/

namespace BtNode

variable (order : Nat) (n : BtNode)

def loadKey (i : Nat) : Option Key := if i < order - 1 then some (n.keys i) else none

def storeKey (i : Nat) (key : Key) : Option BtNode :=
  if i < order - 1 then some { n with keys := Function.update n.keys i key } else none

def loadPointer (i : Nat) : Option Ptr := if i < order then some (n.pointers i) else none

def storePointer (i : Nat) (p : Ptr) : Option BtNode :=
  if i < order then some { n with pointers := Function.update n.pointers i p } else none

/-- The loop from index `i` on until a key stops it or no rounds are left. -/
def scan (stop : Key → Bool) : Nat → Nat → Option Nat
  | 0, i => some i
  | rounds + 1, i => do
    if stop (← n.loadKey order i) then some i else scan stop rounds (i + 1)

/-- `leaf_has_key`. -/
def leafHasKey (key : Key) : Option (Option Nat) := do
  let i ← n.scan order (fun k => k = key) n.numKeys 0
  some (if i < n.numKeys then some i else none)

end BtNode

namespace IndexBtree

variable (order : Nat) (s : IndexBtree)

def setNode (a : Ptr) (n : BtNode) : IndexBtree := { s with node := Function.update s.node a n }

/-! ### Allocation -/

/-- `make_node`, and the node that it returns. -/
def makeNode : IndexBtree × Ptr :=
  ({ s with
    node := Function.update s.node s.fresh
      { s.node s.fresh with isLeaf := false, numKeys := 0, parent := null, next := null }
    fresh := s.fresh + 1 }, s.fresh)

/-- `make_lf`. -/
def makeLf : IndexBtree × Ptr :=
  let (s, a) := s.makeNode
  (s.setNode a { s.node a with isLeaf := true }, a)

/-- `make_nl`. -/
def makeNl : IndexBtree × Ptr :=
  let (s, a) := s.makeNode
  (s.setNode a { s.node a with isLeaf := false }, a)

/-- `init`, over a memory of which nothing is known. -/
def init (memory : Ptr → BtNode) (itemNext : Ptr → Ptr) (inPart : Ptr → Bool) : IndexBtree :=
  let (s, a) := makeLf ⟨null, memory, null + 1, itemNext, inPart⟩
  { s with root := a }

/-! ### Searching -/

/-- `cleanup`: the loop up to `last_ex`, in at most so many rounds. -/
def cleanup (lastEx : Ptr) : Nat → Ptr → Option Unit
  | 0, _ => none
  | rounds + 1, a =>
    if a = null then none
    else
      let a := (s.node a).parent
      if a = lastEx then some () else cleanup lastEx rounds a

/-- The loop of `find_leaf`, with the rounds that are left; the leaf, and `last_ex`. -/
def findLeafFrom (accessType : IdxAcc) (key : Key) : Nat → Ptr → Ptr → Option (Ptr × Ptr)
  | 0, _, _ => none
  | rounds + 1, c, lastEx =>
    let n := s.node c
    if n.isLeaf then some (c, lastEx)
    -- the assertions on the partition, which the node and its keys share
    else if s.inPart c = false then none
    else do
      -- the first child whose separator is greater than the key
      let i ← n.scan order (fun k => key < k) n.numKeys 0
      let child ← n.loadPointer order i
      if accessType = .INDEX_INSERT then
        if (s.node child).numKeys = order - 1 then
          -- a full child may split, so its parent stays latched; `last_ex` is the topmost of these
          findLeafFrom accessType key rounds child (if lastEx = null then c else lastEx)
        else do
          -- this one has room, and the latches above it are given up
          if lastEx ≠ null then s.cleanup lastEx exListSize c
          findLeafFrom accessType key rounds child null
      else findLeafFrom accessType key rounds child lastEx

/-- `find_leaf`. -/
def findLeaf (key : Key) (accessType : IdxAcc) : Option (Ptr × Ptr) :=
  s.findLeafFrom order accessType key exListSize s.root null

/-- `index_read`; the key has to be there. -/
def indexRead (key : Key) : Option Ptr := do
  let (leaf, _) ← s.findLeaf order key .INDEX_READ
  match ← (s.node leaf).leafHasKey order key with
  | some i => (s.node leaf).loadPointer order i
  -- `M_ASSERT(false)`
  | none => none

/-! ### Inserting into a leaf -/

end IndexBtree

/-- `for (i = num_keys; i > insertion_point; i--)`, which moves keys and pointers up. -/
def shiftUp (order insertionPoint : Nat) : Nat → BtNode → Option BtNode
  | 0, n => some n
  | i + 1, n =>
    if insertionPoint < i + 1 then do
      let n ← n.storeKey order (i + 1) (← n.loadKey order i)
      let n ← n.storePointer order (i + 1) (← n.loadPointer order i)
      shiftUp order insertionPoint i n
    else some n

namespace IndexBtree

variable (order : Nat) (s : IndexBtree)

def insertIntoLeaf (leaf : Ptr) (key : Key) (item : Ptr) : Option IndexBtree := do
  let n := s.node leaf
  match ← n.leafHasKey order key with
  -- a key that is there: the new item goes in front of its chain
  | some idx =>
    let s := { s with itemNext := Function.update s.itemNext item (← n.loadPointer order idx) }
    some (s.setNode leaf (← n.storePointer order idx item))
  | none =>
    -- else the entries from the first greater key on move up
    let insertionPoint ← n.scan order (fun k => ¬ k < key) n.numKeys 0
    let n ← shiftUp order insertionPoint n.numKeys n
    let n ← n.storeKey order insertionPoint key
    let n ← n.storePointer order insertionPoint item
    let n := { n with numKeys := n.numKeys + 1 }
    if n.numKeys < order then some (s.setNode leaf n) else none

end IndexBtree

/-! ### Splitting -/

def cut (length : Nat) : Nat := if length % 2 = 0 then length / 2 else length / 2 + 1

/-- A load from a temporary array with so many cells. -/
def loadTemp {α : Type} (length : Nat) (temp : Nat → α) (i : Nat) : Option α :=
  if i < length then some (temp i) else none

def storeTemp {α : Type} (length : Nat) (temp : Nat → α) (i : Nat) (a : α) : Option (Nat → α) :=
  if i < length then some (Function.update temp i a) else none

/-- `for (i = 0, j = 0; ..; i++, j++) { if (j == gap) j++; temp[j] = array[i]; }`. -/
def spread {α : Type} (load : Nat → Option α) (gap length : Nat) :
    Nat → Nat → Nat → (Nat → α) → Option (Nat → α)
  | 0, _, _, temp => some temp
  | rounds + 1, i, j, temp => do
    let j := if j = gap then j + 1 else j
    let temp ← storeTemp length temp j (← load i)
    spread load gap length rounds (i + 1) (j + 1) temp

/-- `for (..; i++, j++) { pointers[j] = temp_pointers[i]; keys[j] = temp_keys[i]; num_keys++; }`
with the assertion on the number of keys of a node. -/
def fill (order : Nat) (tempKey tempPointer : Nat → Option Nat) (asserted : BtNode → Nat) :
    Nat → Nat → Nat → BtNode → Option BtNode
  | 0, _, _, n => some n
  | rounds + 1, i, j, n => do
    let n ← n.storePointer order j (← tempPointer i)
    let n ← n.storeKey order j (← tempKey i)
    let n := { n with numKeys := n.numKeys + 1 }
    if asserted n < order then
      fill order tempKey tempPointer asserted rounds (i + 1) (j + 1) n
    else none

/-- `for (i = num_keys; i < order - 1; i++) pointers[i] = NULL;`, with the rounds left. -/
def clearRest (order : Nat) : Nat → Nat → BtNode → Option BtNode
  | 0, _, n => some n
  | rounds + 1, i, n => do clearRest order rounds (i + 1) (← n.storePointer order i null)

/-- `while (parent->keys[insert_idx] < key && insert_idx < parent->num_keys) insert_idx++;`:
the key is read before the index is compared. -/
def insertIdx (order : Nat) (n : BtNode) (key : Key) : Nat → Nat → Option Nat
  | 0, i => do
    let _ ← n.loadKey order i
    some i
  | rounds + 1, i => do
    if (← n.loadKey order i) < key then insertIdx order n key rounds (i + 1) else some i

/-- A step down of a `UInt32`. -/
def pred32 (i : Nat) : Nat := (i + (2 ^ 32 - 1)) % 2 ^ 32

/-- `for (UInt32 i = num_keys - 1; i >= insert_idx; i--)`, which makes room in an inner node;
the counter is unsigned, so the loop goes on behind the index zero. -/
def makeRoom (order idx : Nat) : Nat → Nat → BtNode → Option BtNode
  | 0, _, _ => none
  | rounds + 1, i, n =>
    if idx ≤ i then do
      let n ← n.storeKey order ((i + 1) % 2 ^ 32) (← n.loadKey order i)
      let n ← n.storePointer order ((i + 2) % 2 ^ 32) (← n.loadPointer order ((i + 1) % 2 ^ 32))
      makeRoom order idx rounds (pred32 i) n
    else some n

namespace IndexBtree

variable (order : Nat) (s : IndexBtree)

def insertIntoNewRoot (left : Ptr) (key : Key) (right : Ptr) : Option IndexBtree := do
  let (s, newRoot) := s.makeNl
  let n ← (s.node newRoot).storeKey order 0 key
  let n ← n.storePointer order 0 left
  let n ← n.storePointer order 1 right
  let n := { n with numKeys := n.numKeys + 1 }
  if n.numKeys < order then
    let s := s.setNode newRoot { n with parent := null }
    let s := s.setNode left { s.node left with parent := newRoot }
    let s := s.setNode right { s.node right with parent := newRoot }
    -- the leaf links are set for inner nodes too
    let s := s.setNode left { s.node left with next := right }
    some { s with root := newRoot }
  else none

/-- `for (i = 0; i <= num_keys; i++) { child = pointers[i]; child->parent = node; }`. -/
def adopt (a : Ptr) : Nat → Nat → IndexBtree → Option IndexBtree
  | 0, _, s => some s
  | rounds + 1, i, s => do
    let child ← (s.node a).loadPointer order i
    adopt a rounds (i + 1) (s.setNode child { s.node child with parent := a })

/-- `split_nl_insert` up to its last call, of which the result has the two arguments. -/
def splitNl (oldNode : Ptr) (leftIndex : Nat) (key : Key) (right : Ptr) :
    Option (IndexBtree × Key × Ptr) := do
  let (s, newNode) := s.makeNode
  let old := s.node oldNode
  -- the pointer goes behind the key of the same index
  let tempPointers ← spread (old.loadPointer order) (leftIndex + 1) (order + 1) (old.numKeys + 1)
    0 0 (fun _ => null)
  let tempKeys ← spread (old.loadKey order) leftIndex order old.numKeys 0 0 (fun _ => 0)
  let tempPointers ← storeTemp (order + 1) tempPointers (leftIndex + 1) right
  let tempKeys ← storeTemp order tempKeys leftIndex key
  let tempPointer := loadTemp (order + 1) tempPointers
  let tempKey := loadTemp order tempKeys
  -- the key in the middle goes to neither node
  let split := cut order
  let old ← fill order tempKey tempPointer BtNode.numKeys (split - 1) 0 0 { old with numKeys := 0 }
  let new := { s.node newNode with next := old.next }
  let old := { old with next := newNode }
  let old ← old.storePointer order (split - 1) (← tempPointer (split - 1))
  let kPrime ← tempKey (split - 1)
  let new ← fill order tempKey tempPointer (fun _ => old.numKeys) (order - split) split 0 new
  let new ← new.storePointer order (order - split) (← tempPointer order)
  let new := { new with parent := old.parent }
  let s := (s.setNode oldNode old).setNode newNode new
  -- the children that have moved
  let s ← s.adopt order newNode (new.numKeys + 1) 0
  some (s, kPrime, newNode)

/-- `insert_into_parent`, with `split_nl_insert` for a full parent; in at most so many
rounds. -/
def insertIntoParent : Nat → IndexBtree → Ptr → Key → Ptr → Option IndexBtree
  | 0, _, _, _, _ => none
  | rounds + 1, s, left, key, right =>
    let parent := (s.node left).parent
    if parent = null then s.insertIntoNewRoot order left key right
    else do
      let n := s.node parent
      -- the index is searched by the key, not by `left`
      let idx ← insertIdx order n key n.numKeys 0
      if n.numKeys < order - 1 then
        let n ← makeRoom order idx (n.numKeys + 1) (pred32 n.numKeys) n
        let n := { n with numKeys := n.numKeys + 1 }
        let n ← n.storeKey order idx key
        let n ← n.storePointer order (idx + 1) right
        some (s.setNode parent n)
      else do
        let (s, kPrime, newNode) ← s.splitNl order parent idx key right
        insertIntoParent rounds s parent kPrime newNode

/-- `split_lf_insert` up to its last call, of which the result has the two arguments. -/
def splitLf (leaf : Ptr) (key : Key) (item : Ptr) : Option (IndexBtree × Key × Ptr) := do
  let (s, newLeaf) := s.makeLf
  let n := s.node leaf
  if n.numKeys = order - 1 then
    let insertionIndex ← n.scan order (fun k => ¬ k < key) (order - 1) 0
    let temp ← spread
      (fun i => do some ((← n.loadKey order i), (← n.loadPointer order i)))
      insertionIndex order n.numKeys 0 0 (fun _ => (0, null))
    let temp ← storeTemp order temp insertionIndex (key, item)
    let tempPointer := fun i => (loadTemp order temp i).map Prod.snd
    let tempKey := fun i => (loadTemp order temp i).map Prod.fst
    let split := cut (order - 1)
    -- `num_keys` counts from zero again in both
    let n ← fill order tempKey tempPointer BtNode.numKeys split 0 0 { n with numKeys := 0 }
    let new ← fill order tempKey tempPointer (fun _ => n.numKeys) (order - split) split 0
      (s.node newLeaf)
    let new := { new with next := n.next }
    let n := { n with next := newLeaf }
    -- the pointers behind the last key are cleared, the keys stay
    let n ← clearRest order (order - 1 - n.numKeys) n.numKeys n
    let new ← clearRest order (order - 1 - new.numKeys) new.numKeys new
    let new := { new with parent := n.parent }
    let newKey ← new.loadKey order 0
    some ((s.setNode leaf n).setNode newLeaf new, newKey, newLeaf)
  else none

def splitLfInsert (leaf : Ptr) (key : Key) (item : Ptr) : Option IndexBtree := do
  let (s, newKey, newLeaf) ← s.splitLf order leaf key item
  insertIntoParent order exListSize s leaf newKey newLeaf

/-! ### Inserting -/

/-- The nodes from the leaf up to `last_ex`, of which there are less than 100. -/
def exList (lastEx : Ptr) : Nat → Ptr → Option Unit
  | 0, _ => none
  | room + 1, a =>
    if a = lastEx then some ()
    else if a = null then none
    else exList lastEx room (s.node a).parent

def indexInsert (key : Key) (item : Ptr) : Option IndexBtree := do
  let (leaf, lastEx) ← s.findLeaf order key .INDEX_INSERT
  if lastEx ≠ null then s.exList lastEx exListSize leaf
  if (s.node leaf).numKeys < order - 1 then s.insertIntoLeaf order leaf key item
  -- a full leaf does not split for a key that it has
  else match ← (s.node leaf).leafHasKey order key with
    | some _ => s.insertIntoLeaf order leaf key item
    | none => s.splitLfInsert order leaf key item

end IndexBtree

/-- Calls of `index_insert`, one after another, each with a key and an item. -/
def btreeMachine (order : Nat) : Machine IndexBtree (Key × Ptr) where
  init s := ∃ memory itemNext inPart, s = IndexBtree.init memory itemNext inPart
  step s call := s.indexInsert order call.1 call.2

end DBx1000.Btree
