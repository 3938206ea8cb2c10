import DBx1000.Bskiplist.Level

/-!
# Optimistic traversals

The traversals of `bsl_get`, `bsl_insert`, `bsl_delete`, `bsl_scan_n` and
`bsl_scan_n_batch`, from the load of the first version to the node that the operation
needs. `none` is a `goto top_retry`. A traversal leaves a node when a validation of the
version under which it has read the node succeeds; that `validate` carries the move.
-/

namespace DBx1000.Bskiplist

open Hocc

/-- `list->headers`. -/
abbrev Bsl := Nat → Addr

/-! ### Ranks -/

/-- `while (i < num_elts && keys[i] <= key) i++`, for at most `turns` turns. -/
def linearLoop (n : Addr) (num : Nat) (key : Key) : (turns i : Nat) → Prog Nat
  | 0, i => pure i
  | turns + 1, i => do
    if i < num then
      if (← loadKey n i) ≤ key then linearLoop n num key turns (i + 1) else pure i
    else pure i

/-- `find_rank_linear`. -/
def findRankLinear (n : Addr) (num : Nat) (key : Key) : Prog Nat := do
  let i ← linearLoop n num key num 0
  pure (if i > 0 then i - 1 else 0)

/-- The loop of `find_rank_binary`, for at most `turns` turns. -/
def binaryLoop (n : Addr) (key : Key) : (turns base len : Nat) → Prog Nat
  | 0, base, _ => pure base
  | turns + 1, base, len => do
    if len > 1 then
      let half := len / 2
      let k ← loadKey n (base + half)
      binaryLoop n key turns (if k ≤ key then base + half else base) (len - half)
    else pure base

/-- `find_rank`, which is `find_rank_binary` without AVX2. -/
def findRank (n : Addr) (num : Nat) (key : Key) : Prog Nat := do
  let rank ← binaryLoop n key num 0 num
  -- the loop leaves rank zero when all keys are greater
  if (← loadKey n rank) > key then pure (if rank > 0 then rank - 1 else 0) else pure rank

/-! ### Moves -/

/-- The horizontal loop of a traversal. `tested` says whether a move checks the writer bit of
the version under which the node has been read. -/
def horizontal (tested : Bool) (key : Key) : (fuel : Nat) → Addr → Hocc64 →
    Prog (Option (Addr × Hocc64))
  | 0, _, _ => .spent
  | fuel + 1, curr, currV => do
    let header ← loadNextHeader curr
    if header ≤ key then
      let next ← loadNext curr
      if next = null then return none
      -- the version of the next node, before that of this one is checked
      let nextV ← loadVersion next
      if tested ∧ hasWriter currV then return none
      if ← validate curr currV (some (.next header next)) then
        horizontal tested key fuel next nextV
      else return none
    else return some (curr, currV)

/-- The child for a key, validated once. -/
def findChild (key : Key) (curr : Addr) (currV : Hocc64) : Prog (Option Addr) := do
  let num ← loadNumElts curr
  let rank ← findRank curr num key
  let child ← loadSlot curr rank
  if child = null then return none
  if hasWriter currV then return none
  if ← validate curr currV none then return some child else return none

/-- The move to a child with the second validation. -/
def moveDown (key : Key) (curr : Addr) (currV : Hocc64) (child : Addr) :
    Prog (Option (Addr × Hocc64)) := do
  let childV ← loadVersion child
  if ← validate curr currV (some (.child key child)) then return some (child, childV)
  else return none

/-- `levels` levels down. -/
def descend (tested : Bool) (fuel : Nat) (key : Key) : (levels : Nat) → Addr → Hocc64 →
    Prog (Option (Addr × Hocc64))
  | 0, curr, currV => return some (curr, currV)
  | levels + 1, curr, currV => do
    let some (curr, currV) ← horizontal tested key fuel curr currV | return none
    let some child ← findChild key curr currV | return none
    let some (curr, currV) ← moveDown key curr currV child | return none
    descend tested fuel key levels curr currV

/-! ### The five traversals -/

/-- The levels of `_bsl_get_value` from `level` down to the leaf, and the result: `some none`
when the key is absent. -/
def getLevels (fuel : Nat) (key : Key) : (level : Nat) → Addr → Hocc64 →
    Prog (Option (Option Val))
  | level, curr, currV => do
    let some (curr, currV) ← horizontal true key fuel curr currV | return none
    if hasWriter currV then return none
    let num ← loadNumElts curr
    let rank ← findRank curr num key
    match level with
    | 0 =>
      if (← loadKey curr rank) = key then
        let value ← loadSlot curr rank
        if ← validate curr currV (some (.found key value)) then return some (some value)
        else return none
      else if ← validate curr currV (some (.absent key)) then return some none
      else return none
    | level + 1 =>
      let child ← loadSlot curr rank
      if child = null then return none
      if ← validate curr currV none then
        let some (curr, currV) ← moveDown key curr currV child | return none
        getLevels fuel key level curr currV
      else return none

/-- The traversal of `_bsl_get_value`. -/
def getTraversal (fuel : Nat) (list : Bsl) (key : Key) : Prog (Option (Option Val)) := do
  let curr := list (maxLevel - 1)
  let currV ← loadVersion curr
  getLevels fuel key (maxLevel - 1) curr currV

/-- The traversal of `_bsl_insert` to the level of the key. -/
def insertTraversal (fuel : Nat) (list : Bsl) (key : Key) : Prog (Option (Addr × Hocc64)) := do
  let curr := list (maxLevel - 1)
  let currV ← loadVersion curr
  let some (curr, currV) ← descend true fuel key (maxLevel - 1 - levelForKey key) curr currV
    | return none
  horizontal true key fuel curr currV

/-- The loop of `_bsl_insert` below a node that has the key, along the first children. -/
def foundDescent : (fuel : Nat) → Addr → Hocc64 → Prog (Option (Addr × Hocc64))
  | 0, _, _ => .spent
  | fuel + 1, child, childV => do
    if (← loadLevel child) > 0 then
      let nextChild ← loadSlot child 0
      if nextChild = null then return none
      -- the version is checked before and after that of the next child
      if hasWriter childV then return none
      if ← validate child childV none then
        let nextV ← loadVersion nextChild
        if ← validate child childV (some (.first nextChild)) then
          foundDescent fuel nextChild nextV
        else return none
      else return none
    else return some (child, childV)

/-- The traversal of `_bsl_insert` from the child of a node that has the key to its leaf. -/
def foundTraversal (fuel : Nat) (child : Addr) : Prog (Option (Addr × Hocc64)) := do
  let childV ← loadVersion child
  foundDescent fuel child childV

/-- The traversal of `_bsl_delete` to the level of the key; it does not move on this level. -/
def deleteTraversal (fuel : Nat) (list : Bsl) (key : Key) : Prog (Option (Addr × Hocc64)) := do
  let curr := list (maxLevel - 1)
  let currV ← loadVersion curr
  descend true fuel key (maxLevel - 1 - levelForKey key) curr currV

/-- The traversal of `_bsl_scan_n` to a leaf, which it read-locks. -/
def scanTraversal (fuel : Nat) (list : Bsl) (start : Key) : Prog (Option Addr) := do
  let curr := list (maxLevel - 1)
  let currV ← loadVersion curr
  -- a scan does not look at the writer bit on the way
  let some (curr, currV) ← descend false fuel start (maxLevel - 2) curr currV | return none
  let some (curr, currV) ← horizontal false start fuel curr currV | return none
  let some child ← findChild start curr currV | return none
  readLock child fuel
  if ← validate curr currV (some (.child start child)) then return some child
  else
    readUnlock child
    return none

/-- The traversal of `_bsl_scan_n_batch`, a copy of that of `_bsl_scan_n`. -/
def scanBatchTraversal (fuel : Nat) (list : Bsl) (start : Key) : Prog (Option Addr) :=
  scanTraversal fuel list start

end DBx1000.Bskiplist
