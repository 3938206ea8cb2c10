import Mathlib.Data.List.Perm.Subperm
import DBx1000.Bskiplist.Levels
import DBx1000.Bskiplist.Search

/-!
# What the B-skiplist stores

A list that is well formed stands for the pairs of its leaves, in key order. `Store` is what a
caller knows of it: these pairs, the `next` items of the values, and what the scans have
delivered.
-/

namespace DBx1000.Bskiplist

open Assoc Program

structure Store where
  pairs : List (Key × Val)
  itemNext : Val → Val
  /-- The pairs given to the callbacks, without the bounds of the batches. -/
  output : List (Key × Val)

/-- The calls of the list. -/
inductive Request
  | insert (key : Key) (value : Val)
  | delete (key : Key)
  | get (key : Key)
  | scan (start : Key) (length : Nat)
  | scanBatch (start : Key) (length : Nat)

/-- What a call returns, and leaves in `*value`. -/
inductive Answer
  | code (n : Nat)
  | value (v : Option Val)
  | done
  deriving DecidableEq

/-- The keys that the operations accept. -/
def Proper (key : Key) : Prop := keyMin < key ∧ key < keyMax

instance (key : Key) : Decidable (Proper key) := inferInstanceAs (Decidable (_ ∧ _))

namespace Store

def insert (s : Store) (key : Key) (value : Val) : Answer × Store :=
  if Proper key then
    (.code 1, { s with
      pairs := put key value s.pairs
      itemNext := match find key s.pairs with
        | some old => Function.update s.itemNext value old
        | none => s.itemNext })
  else (.code 0, s)

def delete (s : Store) (key : Key) : Answer × Store :=
  if Proper key then
    match find key s.pairs with
    | some _ => (.code 1, { s with pairs := erase key s.pairs })
    | none => (.code 0, s)
  else (.code 0, s)

def get (s : Store) (key : Key) : Answer × Store :=
  (.value (if Proper key then find key s.pairs else none), s)

def scan (s : Store) (start : Key) (length : Nat) : Answer × Store :=
  (.done, { s with output := s.output ++ (since start s.pairs).take length })

def call (s : Store) : Request → Answer × Store
  | .insert key value => s.insert key value
  | .delete key => s.delete key
  | .get key => s.get key
  | .scan start length => s.scan start length
  | .scanBatch start length => s.scan start length

/-- The calls one after another, and what they return. -/
def calls (s : Store) : List Request → List Answer × Store
  | [] => ([], s)
  | r :: rs =>
    let (answers, t) := (s.call r).2.calls rs
    ((s.call r).1 :: answers, t)

end Store

theorem outside_of_not_proper {key : Key} (h : ¬Proper key) : key ≤ keyMin ∨ key ≥ keyMax := by
  by_contra inside
  rw [not_or] at inside
  exact h ⟨Nat.lt_of_not_le inside.1, Nat.lt_of_not_le inside.2⟩

theorem Proper.inside {key : Key} (h : Proper key) : ¬(key ≤ keyMin ∨ key ≥ keyMax) := by
  rw [not_or]
  exact ⟨Nat.not_le.mpr h.1, Nat.not_le.mpr h.2⟩

/-- The memory has a well formed list that stands for this store. -/
structure Represents (list : Bsl) (s : Store) (m : Mem) : Prop where
  levels : ∃ lv, HasLevels list lv m ∧ flat (lv 0) = (keyMin, 0) :: s.pairs
  itemNext : m.itemNext = s.itemNext
  output : m.output.flatten = s.output

/-- The loops have fuel for all nodes of the list, and for all levels. -/
def Enough (fuel : Nat) (s : Store) : Prop := maxLevel < fuel ∧ s.pairs.length + 1 < fuel

variable {list : Bsl} {lv : Levels} {m : Mem} {l fuel : Nat} {cells : List Cell}

theorem topRetry_ends {α : Type} {body : Prog (Option α)} {Q : α → Mem → Prop} (pos : 0 < fuel)
    (first : body.Ends exec (fun r t => ∃ a, r = some a ∧ Q a t) m) :
    (topRetry body fuel).Ends exec Q m := by
  obtain ⟨fuel, rfl⟩ := Nat.exists_eq_add_one.mpr pos
  rw [topRetry, Prog.ends_bind]
  apply first.mono
  rintro - t ⟨a, rfl, q⟩
  exact q

theorem length_le_flat (some : ∀ c ∈ cells, c.entries ≠ []) :
    cells.length ≤ (flat cells).length := by
  induction cells with
  | nil => exact Nat.le_refl 0
  | cons c cells ih =>
    have rest := ih fun d hd => some d (List.mem_cons_of_mem c hd)
    have here := List.length_pos_iff.mpr (some c List.mem_cons_self)
    rw [flat_cons, List.length_append, List.length_cons]
    omega

/-- No level has more nodes than there are keys. -/
theorem HasLevels.fueled (h : HasLevels list lv m) (levels : maxLevel < fuel)
    (keys : (flat (lv 0)).length < fuel) : Fueled fuel lv where
  levels := levels
  nodes l lt := by
    have stands := h.stands l lt
    have nodup : ((flat (lv l)).map Prod.fst).Nodup := by
      rw [List.Nodup, List.pairwise_map]
      exact stands.sorted.imp Nat.ne_of_lt
    have sub : (flat (lv l)).map Prod.fst ⊆ (flat (lv 0)).map Prod.fst :=
      fun k hk => ((h.shape.keys l lt k).mp hk).1
    have fewer := (nodup.subperm sub).length_le
    rw [List.length_map, List.length_map] at fewer
    have cells := length_le_flat stands.linked.some
    omega

end DBx1000.Bskiplist
