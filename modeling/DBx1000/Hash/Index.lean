import Mathlib.Data.List.Induction

/-!
# The hash index

`IndexHash`: for each partition an array of buckets, each a list of nodes with a key and the items
that were inserted under it. A new item becomes the head of its node's items; a key without node
gets one at the end of its bucket.

## Main result

`indexRead_insertAll`: after any insertions a read finds the items that were inserted under its key
in its partition, the last one first.
-/

namespace DBx1000.Hash

variable {α : Type*}

/-- The list of items under one key. -/
structure BucketNode (α : Type*) where
  key : Nat
  items : List α

/-- The nodes in the order of `next`. -/
abbrev BucketHeader (α : Type*) := List (BucketNode α)

def BucketHeader.insertItem (key : Nat) (item : α) : BucketHeader α → BucketHeader α
  | [] => [⟨key, [item]⟩]
  | curNode :: nodes =>
    if curNode.key = key then { curNode with items := item :: curNode.items } :: nodes
    else curNode :: insertItem key item nodes

/-- A key without node fails the assertion. -/
def BucketHeader.readItem (key : Nat) : BucketHeader α → Option (List α)
  | [] => none
  | curNode :: nodes => if curNode.key = key then some curNode.items else readItem key nodes

structure IndexHash (α : Type*) where
  bucketCntPerPart : Nat
  buckets : (part bktIdx : Nat) → BucketHeader α

namespace IndexHash

def init (bucketCntPerPart : Nat) : IndexHash α := ⟨bucketCntPerPart, fun _ _ => []⟩

def hash (index : IndexHash α) (key : Nat) : Nat := key % index.bucketCntPerPart

def indexInsert (index : IndexHash α) (key : Nat) (item : α) (partId : Nat) : IndexHash α :=
  { index with
    buckets := fun part bktIdx =>
      if part = partId ∧ bktIdx = index.hash key then
        (index.buckets part bktIdx).insertItem key item
      else index.buckets part bktIdx }

def indexRead (index : IndexHash α) (key partId : Nat) : Option (List α) :=
  (index.buckets partId (index.hash key)).readItem key

/-- One call of `index_insert`. -/
structure Entry (α : Type*) where
  partId : Nat
  key : Nat
  item : α

def insertAll (index : IndexHash α) (entries : List (Entry α)) : IndexHash α :=
  entries.foldl (fun index e => index.indexInsert e.key e.item e.partId) index

end IndexHash

open IndexHash

/-- The items that were inserted under a key in a partition. -/
def chainOf (entries : List (Entry α)) (key partId : Nat) : List α :=
  (entries.filter fun e => e.partId = partId ∧ e.key = key).map Entry.item

theorem mem_chainOf {entries : List (Entry α)} {key partId : Nat} {item : α} :
    item ∈ chainOf entries key partId ↔
      ∃ e ∈ entries, (e.partId = partId ∧ e.key = key) ∧ e.item = item := by
  simp [chainOf, and_assoc]

theorem readItem_insertItem (bucket : BucketHeader α) (key key' : Nat) (item : α) :
    (bucket.insertItem key item).readItem key' =
      if key' = key then some (item :: (bucket.readItem key').getD []) else bucket.readItem key' := by
  induction bucket with
  | nil =>
    by_cases e : key' = key
    · simp [BucketHeader.insertItem, BucketHeader.readItem, e]
    · simp [BucketHeader.insertItem, BucketHeader.readItem, e, Ne.symm e]
  | cons node nodes ih =>
    unfold BucketHeader.insertItem
    split
    · next here =>
      -- the new item goes to the node that a read of `key` stops at
      by_cases e : key' = key
      · simp [BucketHeader.readItem, here, e]
      · simp [BucketHeader.readItem, here, e, Ne.symm e]
    · next other =>
      by_cases stop : node.key = key'
      · have ne : ¬ key' = key := fun e => other (stop.trans e)
        simp [BucketHeader.readItem, stop, ne]
      · simp only [BucketHeader.readItem, if_neg stop, ih]

theorem indexRead_indexInsert (index : IndexHash α) (key key' partId partId' : Nat) (item : α) :
    (index.indexInsert key item partId).indexRead key' partId' =
      if partId' = partId ∧ key' = key then
        some (item :: (index.indexRead key' partId').getD [])
      else index.indexRead key' partId' := by
  by_cases bucket : partId' = partId ∧ index.hash key' = index.hash key
  · have changed : (index.indexInsert key item partId).indexRead key' partId' =
        ((index.buckets partId' (index.hash key')).insertItem key item).readItem key' :=
      congrArg (BucketHeader.readItem key') (if_pos bucket)
    rw [changed, readItem_insertItem]
    simp only [bucket.1, true_and, indexRead]
  · have same : (index.indexInsert key item partId).indexRead key' partId' =
        index.indexRead key' partId' :=
      congrArg (BucketHeader.readItem key') (if_neg bucket)
    rw [same, if_neg]
    -- equal keys have the same bucket
    rintro ⟨part, rfl⟩
    exact bucket ⟨part, rfl⟩

theorem indexRead_insertAll (n : Nat) (entries : List (Entry α)) (key partId : Nat) :
    ((init n).insertAll entries).indexRead key partId =
      if chainOf entries key partId = [] then none
      else some (chainOf entries key partId).reverse := by
  induction entries using List.reverseRecOn with
  | nil => rfl
  | append_singleton entries e ih =>
    have last : (init n).insertAll (entries ++ [e]) =
        ((init n).insertAll entries).indexInsert e.key e.item e.partId := by
      simp only [insertAll, List.foldl_append, List.foldl_cons, List.foldl_nil]
    rw [last, indexRead_indexInsert, ih]
    by_cases mine : e.partId = partId ∧ e.key = key
    · have chain : chainOf (entries ++ [e]) key partId = chainOf entries key partId ++ [e.item] := by
        simp [chainOf, mine]
      rw [if_pos ⟨mine.1.symm, mine.2.symm⟩, chain, if_neg (List.concat_ne_nil e.item _)]
      by_cases empty : chainOf entries key partId = []
      · simp [empty]
      · simp [empty]
    · have chain : chainOf (entries ++ [e]) key partId = chainOf entries key partId := by
        simp [chainOf, mine]
      rw [if_neg fun h => mine ⟨h.1.symm, h.2.symm⟩, chain]

/-- A read finds exactly what was inserted under its key in its partition. -/
theorem mem_of_indexRead {n : Nat} {entries : List (Entry α)} {key partId : Nat} {items : List α}
    (read : ((init n).insertAll entries).indexRead key partId = some items) (item : α) :
    item ∈ items ↔ ∃ e ∈ entries, (e.partId = partId ∧ e.key = key) ∧ e.item = item := by
  rw [indexRead_insertAll] at read
  split at read
  · cases read
  · cases read
    rw [List.mem_reverse, mem_chainOf]

theorem indexRead_of_mem (n : Nat) {entries : List (Entry α)} {e : Entry α} (mem : e ∈ entries) :
    ∃ items, ((init n).insertAll entries).indexRead e.key e.partId = some items ∧ e.item ∈ items := by
  have member : e.item ∈ chainOf entries e.key e.partId :=
    mem_chainOf.mpr ⟨e, mem, ⟨rfl, rfl⟩, rfl⟩
  refine ⟨(chainOf entries e.key e.partId).reverse, ?_, List.mem_reverse.mpr member⟩
  rw [indexRead_insertAll, if_neg (List.ne_nil_of_mem member)]

end DBx1000.Hash
