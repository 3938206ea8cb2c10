import DBx1000.Bskiplist.Traversal

/-!
# The operations of the B-skiplist

`bsl_new`, `bsl_get`, `bsl_insert`, `bsl_delete` and the two scans, without the calls of
`epoch_enter` and `epoch_exit` around them. `addr` stands for a pointer; where the source
declares a pointer without a value, it is `null`.
-/

namespace DBx1000.Bskiplist

open Hocc

/-- Runs the part of an operation behind `top_retry` until it does not go back there. -/
def topRetry {α : Type} (body : Prog (Option α)) : (fuel : Nat) → Prog α
  | 0 => .spent
  | fuel + 1 => do
    match ← body with
    | some a => pure a
    | none => topRetry body fuel

/-! ### `bsl_new` and `bsl_get` -/

/-- The sentinels of the levels; `headers` are those of the levels below. -/
def newLevels : (levels : Nat) → List Addr → Prog (List Addr)
  | 0, headers => pure headers
  | levels + 1, headers => do
    let s ← nodeAlloc
    storeLevel s headers.length
    storeNumElts s 1
    storeNext s null
    storeNextHeader s keyMax
    storeKey s 0 keyMin
    -- the leaf sentinel comes first and has no child
    if headers.length > 0 then storeSlot s 0 (headers.getD (headers.length - 1) null)
    newLevels levels (headers ++ [s])

/-- `bsl_new`. -/
def bslNew : Prog Bsl := do
  let headers ← newLevels maxLevel []
  pure fun l => headers.getD l null

/-- `bsl_get`: the value if it returns 1. -/
def bslGet (fuel : Nat) (list : Bsl) (key : Key) : Prog (Option Val) :=
  if key ≤ keyMin ∨ key ≥ keyMax then pure none
  else topRetry (getTraversal fuel list key) fuel

/-! ### `bsl_insert` -/

def addNumElts (n : Addr) (num : Nat) : Prog Unit :=
  storeNode n fun d => { d with numElts := d.numElts + num }

/-- `split_keys`. -/
def splitKeys (src dst : Addr) (startRank dstOffset : Nat) : Prog Nat := do
  let num ← loadNumElts src
  let moveCnt := num - startRank
  Program.Prog.assert (startRank ≤ num)
  memmoveKeys dst dstOffset src startRank moveCnt
  storeNumElts src startRank
  addNumElts dst moveCnt
  pure moveCnt

/-- `insert_internal_slot` and `insert_leaf_slot`, which differ in the array they name. -/
def insertSlot (n : Addr) (rank : Nat) (key : Key) (slot : Nat) : Prog Unit := do
  let num ← loadNumElts n
  memmoveKeys n (rank + 1) n rank (num - rank)
  memmoveSlots n (rank + 1) n rank (num - rank)
  storeKey n rank key
  storeSlot n rank slot
  addNumElts n 1

def insertInternalSlot (n : Addr) (rank : Nat) (key : Key) (child : Addr) : Prog Unit :=
  insertSlot n rank key child

def insertLeafSlot (n : Addr) (rank : Nat) (key : Key) (value : Val) : Prog Unit :=
  insertSlot n rank key value

/-- The loop that allocates `new_nodes`. -/
def allocNodes (fuel : Nat) : (count : Nat) → Prog (List Addr)
  | 0 => pure []
  | count + 1 => do
    let n ← nodeAlloc
    writeLock fuel n
    let rest ← allocNodes fuel count
    pure (n :: rest)

/-- The loop that frees them. -/
def destroyNodes : List Addr → Prog Unit
  | [] => pure ()
  | n :: rest => do
    if n ≠ null then nodeDestroy n
    destroyNodes rest

/-- A new value for a key that is there: the item points to the item before. -/
def chainValue (leaf : Addr) (rank : Nat) (value : Val) : Prog Unit := do
  let oldVal ← loadSlot leaf rank
  perform (.link value oldVal)
  storeSlot leaf rank value

/-- The branch for a key found in `curr`; the value of the key is in its leaf. -/
def insertFound (fuel : Nat) (key : Key) (value : Val) (newNodes : List Addr) (curr : Addr)
    (rank : Nat) : Prog (Option Nat) := do
  if (← loadLevel curr) = 0 then
    Program.Prog.assert (levelForKey key = 0)
    chainValue curr rank value
    writeUnlock curr
    return some 1
  else
    let child ← loadSlot curr rank
    -- the value is in the leaf at the end of the first children
    let childV ← loadVersion child
    writeUnlock curr
    let some (child, childV) ← foundDescent fuel child childV | return none
    writeLock fuel child
    if ← validate child (childV + hoccWriterBit) none then
      chainValue child 0 value
      writeUnlock child
      -- the key needs no nodes of its own
      destroyNodes newNodes
      return some 1
    else
      writeUnlock child
      return none

/-- `while (curr->next_header <= key)` with write locks, for at most `turns` turns. -/
def walkLocked (fuel : Nat) (key : Key) : (turns : Nat) → Addr → Prog Addr
  | 0, _ => .spent
  | turns + 1, curr => do
    if (← loadNextHeader curr) ≤ key then
      let next ← loadNext curr
      -- hand over hand
      writeLock fuel next
      writeUnlock curr
      walkLocked fuel key turns next
    else pure curr

/-- The loop over the levels below the one where the key has been inserted: a new node
begins with the key and takes over what `curr` has behind it. -/
def insertBelow (fuel : Nat) (key : Key) (value : Val) (newNodes : List Addr) :
    (level numSplit : Nat) → (curr parent : Addr) → Prog Unit
  | 0, numSplit, _, _ => Program.Prog.assert (numSplit = levelForKey key)
  | level + 1, numSplit, curr, parent => do
    writeLock fuel curr
    if parent ≠ null then writeUnlock parent
    let curr ← walkLocked fuel key fuel curr
    -- the elements behind `rank` go to the new node
    let rank ← findRankLinear curr (← loadNumElts curr) key
    Program.Prog.assert (levelForKey key > level)
    let newNode := newNodes.getD numSplit null
    let numSplit := numSplit + 1
    storeNextHeader newNode (← loadNextHeader curr)
    storeNext newNode (← loadNext curr)
    storeLevel newNode level
    if level > 0 then insertInternalSlot newNode 0 key (newNodes.getD numSplit null)
    else insertLeafSlot newNode 0 key value
    let eltsMoved ← splitKeys curr newNode (rank + 1) 1
    memmoveSlots newNode 1 curr (rank + 1) eltsMoved
    storeNextHeader curr (← loadKey newNode 0)
    storeNext curr newNode
    writeUnlock newNode
    if level > 0 then
      -- `curr` stays locked until its child is
      let child ← loadSlot curr rank
      insertBelow fuel key value newNodes level numSplit child curr
    else
      writeUnlock curr
      -- the leaf is the last one
      insertBelow fuel key value newNodes level numSplit null null

/-- Inserts behind `rank` in a node with room and goes on below. -/
def insertInto (fuel : Nat) (key : Key) (value : Val) (newNodes : List Addr) (n : Addr)
    (rank : Nat) : Prog Unit := do
  let level := levelForKey key
  if level > 0 then
    -- the node of the key on the level below is still empty
    insertInternalSlot n (rank + 1) key (newNodes.getD 0 null)
    let child ← loadSlot n rank
    insertBelow fuel key value newNodes level 0 child n
  else
    insertLeafSlot n (rank + 1) key value
    writeUnlock n

/-- The branch for a key that is not there. -/
def insertNew (fuel : Nat) (key : Key) (value : Val) (newNodes : List Addr) (curr : Addr)
    (rank : Nat) : Prog Unit := do
  let num ← loadNumElts curr
  if num + 1 > capacity then
    let newNode ← nodeAlloc
    writeLock fuel newNode
    storeNext newNode (← loadNext curr)
    storeNextHeader newNode (← loadNextHeader curr)
    storeLevel newNode (levelForKey key)
    -- the full node is halved, and its rank decides on the half of the key
    let halfKeys := num / 2
    let eltsMoved ← splitKeys curr newNode halfKeys 0
    storeNextHeader curr (← loadKey newNode 0)
    storeNext curr newNode
    memmoveSlots newNode 0 curr halfKeys eltsMoved
    let numLeft ← loadNumElts curr
    -- the half that is not needed is unlocked
    if rank + 1 ≤ numLeft then
      writeUnlock newNode
      insertInto fuel key value newNodes curr rank
    else
      Program.Prog.assert ((← loadNumElts newNode) > 0)
      writeUnlock curr
      insertInto fuel key value newNodes newNode (rank - numLeft)
  else insertInto fuel key value newNodes curr rank

/-- `_bsl_insert` behind `top_retry`. -/
def insertOnce (fuel : Nat) (list : Bsl) (key : Key) (value : Val) (newNodes : List Addr) :
    Prog (Option Nat) := do
  let some (curr, currV) ← insertTraversal fuel list key | return none
  writeLock fuel curr
  -- the node is the one that the traversal has left, under its own lock
  if ← validate curr (currV + hoccWriterBit) none then
    let rank ← findRankLinear curr (← loadNumElts curr) key
    if (← loadKey curr rank) = key then insertFound fuel key value newNodes curr rank
    else
      insertNew fuel key value newNodes curr rank
      return some 1
  else
    writeUnlock curr
    return none

/-- `bsl_insert`. -/
def bslInsert (fuel : Nat) (list : Bsl) (key : Key) (value : Val) : Prog Nat := do
  if key ≤ keyMin ∨ key ≥ keyMax then return 0
  let newNodes ← allocNodes fuel (levelForKey key)
  topRetry (insertOnce fuel list key value newNodes) fuel

/-! ### `bsl_delete` -/

/-- `delete_internal_slot` and `delete_leaf_slot`. -/
def deleteSlot (n : Addr) (rank : Nat) : Prog Unit := do
  let num ← loadNumElts n
  memmoveKeys n rank n (rank + 1) (num - rank - 1)
  memmoveSlots n rank n (rank + 1) (num - rank - 1)
  storeNode n fun d => { d with numElts := d.numElts - 1 }

def deleteInternalSlot (n : Addr) (rank : Nat) : Prog Unit := deleteSlot n rank
def deleteLeafSlot (n : Addr) (rank : Nat) : Prog Unit := deleteSlot n rank

/-- The search on the level of the key; `prev` stays locked when the key is found behind it. -/
def deleteWalk (fuel : Nat) (key : Key) : (turns : Nat) → (prev curr : Addr) → (rank : Nat) →
    Bool → Prog (Addr × Addr × Nat × Bool)
  | 0, _, _, _, _ => .spent
  | turns + 1, prev, curr, rank, foundKey => do
    if !foundKey && (← loadNextHeader curr) ≤ key then
      let next ← loadNext curr
      writeLock fuel next
      let rank ← findRankLinear next (← loadNumElts next) key
      let foundKey := (← loadKey next rank) == key
      -- the node to the left of the key is kept
      if !foundKey then writeUnlock curr
      deleteWalk fuel key turns curr next rank foundKey
    else pure (prev, curr, rank, foundKey)

/-- `while (left_node->next != current)` with write locks. -/
def walkLeft (fuel : Nat) (current : Addr) : (turns : Nat) → (leftNode : Addr) → Prog Addr
  | 0, _ => .spent
  | turns + 1, leftNode => do
    let next ← loadNext leftNode
    if next ≠ current then
      writeLock fuel next
      writeUnlock leftNode
      walkLeft fuel current turns next
    else pure leftNode

/-- Takes the first key, or the whole node, from behind `leftNode`; `current` is unlocked. -/
def unlinkFirst (leftNode current : Addr) : Prog Unit := do
  if (← loadNumElts current) = 1 then
    -- the last element: the node goes with it
    storeNextHeader leftNode (← loadNextHeader current)
    storeNext leftNode (← loadNext current)
    storeNumElts current 0
    writeUnlock current
    ebrRetire current
  else
    -- else the second element becomes the first
    deleteSlot current 0
    storeNextHeader leftNode (← loadKey current 0)
    writeUnlock current

/-- The loop over the levels from the one of `current` down to the leaf, where the key is the
first one of `current` and `leftNode` is left of it. -/
def deleteBelow (fuel : Nat) (key : Key) : (level : Nat) → (leftNode current : Addr) → Prog Unit
  | 0, leftNode, current => do
    Program.Prog.assert ((← loadLevel current) = 0 ∧ (← loadLevel leftNode) = 0)
    let leftNode ← walkLeft fuel current fuel leftNode
    unlinkFirst leftNode current
    writeUnlock leftNode
  | level + 1, leftNode, current => do
    let leftNode ← walkLeft fuel current fuel leftNode
    Program.Prog.assert ((← loadKey current 0) = key)
    Program.Prog.assert ((← loadNextHeader leftNode) = key)
    -- both children are read before the node may go
    let nextCurrent ← loadSlot current 0
    let nextLeft ← loadSlot leftNode ((← loadNumElts leftNode) - 1)
    unlinkFirst leftNode current
    writeLock fuel nextLeft
    writeLockEvicting fuel nextCurrent
    writeUnlock leftNode
    deleteBelow fuel key level nextLeft nextCurrent

/-- `_bsl_delete` behind `top_retry`. -/
def deleteOnce (fuel : Nat) (list : Bsl) (key : Key) : Prog (Option Nat) := do
  let some (curr, currV) ← deleteTraversal fuel list key | return none
  writeLock fuel curr
  if ← validate curr (currV + hoccWriterBit) none then
    let rank ← findRankLinear curr (← loadNumElts curr) key
    let foundKey := (← loadKey curr rank) == key
    let (prev, curr, rank, foundKey) ← deleteWalk fuel key fuel null curr rank foundKey
    if !foundKey then
      writeUnlock curr
      return some 0
    Program.Prog.assert ((← loadKey curr rank) = key)
    if rank ≠ 0 then
      if (← loadLevel curr) = 0 then
        deleteLeafSlot curr rank
        if prev ≠ null then writeUnlock prev
        writeUnlock curr
        return some 1
      else
        -- the key is inside the node, its tower begins below
        let current ← loadSlot curr rank
        let leftNode ← loadSlot curr (rank - 1)
        deleteInternalSlot curr rank
        writeLock fuel leftNode
        writeLockEvicting fuel current
        if prev ≠ null then writeUnlock prev
        writeUnlock curr
        deleteBelow fuel key (← loadLevel current) leftNode current
        return some 1
    else
      -- the key is the first one of its node
      Program.Prog.assert (prev ≠ null)
      deleteBelow fuel key (← loadLevel curr) prev curr
      return some 1
  else
    writeUnlock curr
    return none

/-- `bsl_delete`. -/
def bslDelete (fuel : Nat) (list : Bsl) (key : Key) : Prog Nat :=
  if key ≤ keyMin ∨ key ≥ keyMax then pure 0
  else topRetry (deleteOnce fuel list key) fuel

/-! ### `bsl_scan_n` and `bsl_scan_n_batch` -/

/-- `while (curr->next_header <= current_start)` with read locks. -/
def readWalk (fuel : Nat) (start : Key) : (turns : Nat) → Addr → Prog Addr
  | 0, _ => .spent
  | turns + 1, curr => do
    if (← loadNextHeader curr) ≤ start then
      let next ← loadNext curr
      readLock next fuel
      readUnlock curr
      readWalk fuel start turns next
    else pure curr

/-- The callback of `bsl_scan_n`, for each of `count` elements from `rank` on. -/
def deliverEach (leaf : Addr) (rank : Nat) : (count : Nat) → Prog Unit
  | 0 => pure ()
  | count + 1 => do
    let key ← loadKey leaf rank
    let value ← loadSlot leaf rank
    perform (.callback [(key, value)])
    deliverEach leaf (rank + 1) count

/-- The elements of a `bsl_range_t`. -/
def readRange (leaf : Addr) (rank : Nat) : (count : Nat) → Prog (List (Key × Val))
  | 0 => pure []
  | count + 1 => do
    let key ← loadKey leaf rank
    let value ← loadSlot leaf rank
    let rest ← readRange leaf (rank + 1) count
    pure ((key, value) :: rest)

/-- The callback of `bsl_scan_n_batch`, which reads the range that it is given. -/
def deliverBatch (leaf : Addr) (rank count : Nat) : Prog Unit := do
  perform (.callback (← readRange leaf rank count))

/-- The loop `while (remaining)`. The result is the `remaining` and `current_start` of a
`goto top_retry`, or `none` when the scan is done. -/
def scanLeaves (fuel : Nat) (deliver : Addr → Nat → Nat → Prog Unit) :
    (turns : Nat) → (leaf : Addr) → (rank remaining : Nat) → (start : Key) →
    Prog (Option (Nat × Key))
  | 0, _, _, _, _ => .spent
  | turns + 1, leaf, rank, remaining, start => do
    if remaining = 0 then return none
    let num ← loadNumElts leaf
    let batchSize := min remaining (num - rank)
    let mut remaining := remaining
    -- where a retry would begin
    let mut start := start
    if batchSize > 0 then
      deliver leaf rank batchSize
      remaining := remaining - batchSize
      start := ((← loadKey leaf (rank + batchSize - 1)) + 1) % 2 ^ 64
    let next ← loadNext leaf
    if next = null ∨ remaining = 0 then
      readUnlock leaf
      return none
    if ← readTrylock next fuel then
      readUnlock leaf
      scanLeaves fuel deliver turns next 0 remaining start
    else
      -- the lock of the next leaf was not free, and the scan starts again
      readUnlock leaf
      return some (remaining, start)

/-- A scan behind `top_retry`, up to the next `goto top_retry`. -/
def scanOnce (fuel : Nat) (list : Bsl) (traversal : Prog (Option Addr))
    (deliver : Addr → Nat → Nat → Prog Unit) (remaining : Nat) (start : Key) :
    Prog (Option (Nat × Key)) := do
  let some curr ← traversal | return some (remaining, start)
  let leaf ← readWalk fuel start fuel curr
  let numElts ← loadNumElts leaf
  let rank ← findRank leaf numElts start
  -- the element at `rank` is before the start, or the sentinel
  if (← loadKey leaf rank) ≠ start ∨ (start = keyMin ∧ leaf = list 0) then
    if rank + 1 = numElts then
      let next ← loadNext leaf
      if next = null then
        readUnlock leaf
        return none
      if ← readTrylock next fuel then
        readUnlock leaf
        scanLeaves fuel deliver fuel next 0 remaining start
      else
        readUnlock leaf
        return some (remaining, start)
    else scanLeaves fuel deliver fuel leaf (rank + 1) remaining start
  else scanLeaves fuel deliver fuel leaf rank remaining start

/-- The turns of `top_retry` of a scan. -/
def scanRetry (once : Nat → Key → Prog (Option (Nat × Key))) :
    (fuel : Nat) → (remaining : Nat) → (start : Key) → Prog Unit
  | 0, _, _ => .spent
  | fuel + 1, remaining, start => do
    match ← once remaining start with
    | some (remaining, start) => scanRetry once fuel remaining start
    | none => pure ()

/-- `bsl_scan_n`. -/
def bslScanN (fuel : Nat) (list : Bsl) (start : Key) (length : Nat) : Prog Unit :=
  if length = 0 then pure ()
  else scanRetry (fun remaining start =>
    scanOnce fuel list (scanTraversal fuel list start) deliverEach remaining start) fuel length start

/-- `bsl_scan_n_batch`. -/
def bslScanNBatch (fuel : Nat) (list : Bsl) (start : Key) (length : Nat) : Prog Unit :=
  if length = 0 then pure ()
  else scanRetry (fun remaining start =>
    scanOnce fuel list (scanBatchTraversal fuel list start) deliverBatch remaining start)
    fuel length start

end DBx1000.Bskiplist
