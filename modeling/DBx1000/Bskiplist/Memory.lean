import Mathlib.Logic.Function.Basic
import DBx1000.Library.Program
import DBx1000.Hocc64.Word

/-!
# The memory of the B-skiplist

Nodes with their lock words, and the atomic operations on them. Addresses, keys and values
are 64-bit words, as natural numbers; the array `slots` of a node has the values of a leaf
and the children of an internal node, which share one place in the source too.
-/

namespace DBx1000.Bskiplist

open Program Hocc

abbrev Addr := Nat
abbrev Key := Nat
abbrev Val := Nat

def null : Addr := 0

def keyMin : Key := 0
def keyMax : Key := 2 ^ 64 - 1

def maxLevel : Nat := 5

/-- `B_LEAF` and `B_INTERNAL`, of `NODE_SIZE` 2048 and a header of 32 bytes. -/
def capacity : Nat := (2048 - 32) / (8 + 8)

/-- A node without its lock word. -/
structure Node where
  next : Addr
  nextHeader : Key
  numElts : Nat
  level : Nat
  keys : Nat → Key
  slots : Nat → Nat

/-- A node as `bsl_node_alloc` leaves it. -/
def Node.zero : Node := ⟨null, 0, 0, 0, fun _ => 0, fun _ => 0⟩

structure Mem where
  ctrl : Addr → Hocc64
  node : Addr → Node
  /-- The address of the next node that `bsl_node_alloc` returns. -/
  fresh : Addr
  /-- The `next` field of a `c_itemid_t`; the values of the list are such items. -/
  itemNext : Val → Val
  /-- The nodes given to `ebr_retire` and `bsl_node_destroy`. -/
  retired : List Addr
  destroyed : List Addr
  /-- The batches given to the callback of a scan. -/
  output : List (List (Key × Val))

/-- What an optimistic traversal takes from a node that it leaves. -/
inductive Move
  | next (header : Key) (target : Addr)
  | child (key : Key) (target : Addr)
  | found (key : Key) (value : Val)
  | absent (key : Key)
  | first (target : Addr)

inductive Op
  /-- `NODE_LOAD_VERSION`. -/
  | loadVersion (n : Addr)
  /-- `NODE_VALIDATE`; the move is the one that the traversal makes if it succeeds. -/
  | validate (n : Addr) (v : Hocc64) (move : Option Move)
  /-- Another access to `ctrl`: it stores `f v` and returns the old `v`. -/
  | rmw (n : Addr) (f : Hocc64 → Hocc64)
  | load (n : Addr) (f : Node → Nat)
  | store (f : (Addr → Node) → Addr → Node)
  /-- `value->next = next`. -/
  | link (value next : Val)
  | alloc
  | retire (n : Addr)
  | destroy (n : Addr)
  | callback (batch : List (Key × Val))

def Op.Result : Op → Type
  | loadVersion _ | rmw _ _ => Hocc64
  | validate _ _ _ => Bool
  | load _ _ | alloc => Nat
  | store _ | link _ _ | retire _ | destroy _ | callback _ => Unit

def exec : (o : Op) → Mem → o.Result × Mem
  | .loadVersion n, m => (m.ctrl n, m)
  | .validate n v _, m => (hoccValidate (m.ctrl n) v, m)
  | .rmw n f, m => (m.ctrl n, { m with ctrl := Function.update m.ctrl n (f (m.ctrl n)) })
  | .load n f, m => (f (m.node n), m)
  | .store f, m => ((), { m with node := f m.node })
  | .link value next, m => ((), { m with itemNext := Function.update m.itemNext value next })
  | .alloc, m => (m.fresh, { m with
      ctrl := Function.update m.ctrl m.fresh hoccInit
      node := Function.update m.node m.fresh Node.zero
      fresh := m.fresh + 1 })
  | .retire n, m => ((), { m with retired := n :: m.retired })
  | .destroy n, m => ((), { m with destroyed := n :: m.destroyed })
  | .callback batch, m => ((), { m with output := m.output ++ [batch] })

abbrev Prog := Program.Prog Op.Result

def perform (o : Op) : Prog o.Result := Program.Prog.op o

/-! ### Loads and stores -/

def loadVersion (n : Addr) : Prog Hocc64 := perform (.loadVersion n)
def validate (n : Addr) (v : Hocc64) (move : Option Move) : Prog Bool :=
  perform (.validate n v move)

def loadNext (n : Addr) : Prog Addr := perform (.load n Node.next)
def loadNextHeader (n : Addr) : Prog Key := perform (.load n Node.nextHeader)
def loadNumElts (n : Addr) : Prog Nat := perform (.load n Node.numElts)
def loadLevel (n : Addr) : Prog Nat := perform (.load n Node.level)
def loadKey (n : Addr) (i : Nat) : Prog Key := perform (.load n (·.keys i))
/-- `LEAF_VALUES(n)[i]` or `INTERNAL_CHILDREN(n)[i]`. -/
def loadSlot (n : Addr) (i : Nat) : Prog Nat := perform (.load n (·.slots i))

/-- A store to the fields of one node. -/
def storeNode (n : Addr) (f : Node → Node) : Prog Unit :=
  perform (.store fun node => Function.update node n (f (node n)))

def storeNext (n next : Addr) : Prog Unit := storeNode n ({ · with next := next })
def storeNextHeader (n : Addr) (key : Key) : Prog Unit :=
  storeNode n ({ · with nextHeader := key })
def storeNumElts (n : Addr) (num : Nat) : Prog Unit := storeNode n ({ · with numElts := num })
def storeLevel (n : Addr) (level : Nat) : Prog Unit := storeNode n ({ · with level := level })

/-- A store to one element of an array, within its bounds. -/
def storeKey (n : Addr) (i : Nat) (key : Key) : Prog Unit := do
  Program.Prog.assert (i < capacity)
  storeNode n fun d => { d with keys := Function.update d.keys i key }

def storeSlot (n : Addr) (i : Nat) (slot : Nat) : Prog Unit := do
  Program.Prog.assert (i < capacity)
  storeNode n fun d => { d with slots := Function.update d.slots i slot }

/-- `memmove` of `count` elements from `src + from` to `dst + to`. -/
def moved (src dst : Nat → Nat) (start offset count : Nat) (i : Nat) : Nat :=
  if offset ≤ i ∧ i < offset + count then src (i - offset + start) else dst i

def memmoveKeys (dst : Addr) (offset : Nat) (src : Addr) (start count : Nat) : Prog Unit := do
  Program.Prog.assert (offset + count ≤ capacity)
  perform (.store fun node => Function.update node dst
    { node dst with keys := moved (node src).keys (node dst).keys start offset count })

def memmoveSlots (dst : Addr) (offset : Nat) (src : Addr) (start count : Nat) : Prog Unit := do
  Program.Prog.assert (offset + count ≤ capacity)
  perform (.store fun node => Function.update node dst
    { node dst with slots := moved (node src).slots (node dst).slots start offset count })

/-- `bsl_node_alloc`, which does not fail. -/
def nodeAlloc : Prog Addr := perform .alloc
def nodeDestroy (n : Addr) : Prog Unit := perform (.destroy n)
def ebrRetire (n : Addr) : Prog Unit := perform (.retire n)

/-! ### The lock operations of `hocc64.h` on a node -/

def atomicLoad (n : Addr) : Prog Hocc64 := perform (.rmw n id)

def compareExchange (n : Addr) (v w : Hocc64) : Prog Bool := do
  let old : Hocc64 ← perform (.rmw n fun x => if x = v then w else x)
  pure (old == v)

/-- `hocc_read_lock`. -/
def readLock (n : Addr) : Nat → Prog Unit
  | 0 => .spent
  | fuel + 1 => do
    let v ← atomicLoad n
    if hasWriter v then readLock n fuel
    else if ← compareExchange n v (v + hoccReaderUnit) then pure ()
    else readLock n fuel

/-- `hocc_read_trylock`. -/
def readTrylock (n : Addr) : Nat → Prog Bool
  | 0 => .spent
  | fuel + 1 => do
    let v ← atomicLoad n
    if hasRetry v then pure false
    else if hasWriter v then readTrylock n fuel
    else if ← compareExchange n v (v + hoccReaderUnit) then pure true
    else readTrylock n fuel

/-- `hocc_read_unlock`. -/
def readUnlock (n : Addr) : Prog Unit := do
  let _ ← perform (.rmw n (· - hoccReaderUnit))

/-- The loop until all readers have left. -/
def drain (n : Addr) : Nat → Prog Unit
  | 0 => .spent
  | fuel + 1 => do
    if hasReaders (← atomicLoad n) then drain n fuel else pure ()

/-- The loop that sets the writer bit, and the bits `more`. -/
def claim (n : Addr) (more : Hocc64) : Nat → Prog Unit
  | 0 => .spent
  | fuel + 1 => do
    let v ← atomicLoad n
    if hasWriter v then claim n more fuel
    else if ← compareExchange n v (v ||| hoccWriterBit ||| more) then pure ()
    else claim n more fuel

/-- `hocc_write_lock`. -/
def writeLock (fuel : Nat) (n : Addr) : Prog Unit := do
  claim n 0 fuel
  drain n fuel

/-- `hocc_write_lock_evicting`. -/
def writeLockEvicting (fuel : Nat) (n : Addr) : Prog Unit := do
  claim n hoccRetryBit fuel
  drain n fuel

/-- `hocc_write_unlock`. -/
def writeUnlock (n : Addr) : Prog Unit := do
  let v ← atomicLoad n
  let _ ← perform (.rmw n fun _ => hoccUnlocked v)

end DBx1000.Bskiplist
