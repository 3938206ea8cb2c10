import Mathlib.Data.List.InsertIdx
import DBx1000.Btree.Loops

/-!
# The levels of the tree

A tree is described by its levels, from the leaves up; a level is the list of its nodes from
the left to the right. The children of the nodes of a level are, in order, the nodes of the
level below, so all leaves are equally deep by construction.

The bounds of all nodes are kept in one order: a separator `k` has the rank `2 k + 1` and a key
of a leaf the rank `2 k + 2`, so that a key equal to a separator belongs to its right.

## Main result

`Above.frame`: levels are levels still after a change to other nodes.
-/

namespace DBx1000.Btree

open Shift

def sepRank (k : Key) : Nat := 2 * k + 1
def keyRank (k : Key) : Nat := 2 * k + 2

/-- A node of the tree, with the rank of its lower bound. -/
structure Cell where
  addr : Ptr
  low : Nat
  keys : List Key
  pointers : List Ptr

abbrev Level := List Cell

def addrs (levels : List Level) : List Ptr := levels.flatten.map Cell.addr

namespace Cell

def bound (c : Cell) : Nat × Ptr := (c.low, c.addr)

/-- The lower bounds of the children. -/
def lows (c : Cell) : List Nat := c.low :: c.keys.map sepRank

/-- The children, each with its lower bound. -/
def kids (c : Cell) : List (Nat × Ptr) := c.lows.zip c.pointers

/-- The heap has the cell. -/
structure Holds (order : Nat) (s : IndexBtree) (leaf : Bool) (c : Cell) : Prop where
  isLeaf : (s.node c.addr).isLeaf = leaf
  numKeys : (s.node c.addr).numKeys = c.keys.length
  keys : cells (s.node c.addr).keys c.keys.length = c.keys
  pointers : cells (s.node c.addr).pointers c.pointers.length = c.pointers
  arity : c.pointers.length = c.keys.length + if leaf then 0 else 1
  few : c.keys.length ≤ order - 1

end Cell

variable {order : Nat} {s s' : IndexBtree}

/-- Everything in a node but the pointer to its parent is as before. -/
def Kept (s s' : IndexBtree) (a : Ptr) : Prop :=
  s'.node a = { s.node a with parent := (s'.node a).parent }

theorem Kept.of_eq {a : Ptr} (same : s'.node a = s.node a) : Kept s s' a := by
  unfold Kept
  rw [same]

theorem Kept.trans {s'' : IndexBtree} {a : Ptr} (first : Kept s s' a) (second : Kept s' s'' a) :
    Kept s s'' a := by
  unfold Kept at *
  rw [second, first]

theorem Kept.next {a : Ptr} (kept : Kept s s' a) : (s'.node a).next = (s.node a).next := by
  rw [kept]

theorem Cell.Holds.kept {leaf : Bool} {c : Cell} (h : c.Holds order s leaf)
    (kept : Kept s s' c.addr) : c.Holds order s' leaf := by
  refine ⟨?_, ?_, ?_, ?_, h.arity, h.few⟩
  all_goals rw [kept]
  · exact h.isLeaf
  · exact h.numKeys
  · exact h.keys
  · exact h.pointers

/-! ### Children -/

namespace Cell

variable {c : Cell} {u v : List (Nat × Ptr)} {lo : Nat} {left : Ptr}

theorem length_lows : c.lows.length = c.keys.length + 1 := by
  simp [lows]

theorem Holds.length_pointers (h : c.Holds order s false) :
    c.pointers.length = c.lows.length := by
  rw [length_lows, h.arity]
  rfl

theorem map_fst_kids (arity : c.pointers.length = c.lows.length) :
    c.kids.map Prod.fst = c.lows :=
  List.map_fst_zip (Nat.le_of_eq arity.symm)

theorem map_snd_kids (arity : c.pointers.length = c.lows.length) :
    c.kids.map Prod.snd = c.pointers :=
  List.map_snd_zip (Nat.le_of_eq arity)

theorem mem_kids_snd (arity : c.pointers.length = c.lows.length) {p : Ptr} :
    p ∈ c.pointers ↔ ∃ lo, (lo, p) ∈ c.kids := by
  rw [← map_snd_kids arity, List.mem_map]
  constructor
  · rintro ⟨⟨lo, q⟩, mem, rfl⟩
    exact ⟨lo, mem⟩
  · rintro ⟨lo, mem⟩
    exact ⟨(lo, p), mem, rfl⟩

/-- A separator and the child behind it are inserted behind a child. -/
def insert (c : Cell) (i : Nat) (key : Key) (right : Ptr) : Cell :=
  { c with keys := c.keys.insertIdx i key, pointers := c.pointers.insertIdx (i + 1) right }

theorem insertIdx_mid {α : Type} (front back : List α) (a b : α) :
    (front ++ a :: back).insertIdx (front.length + 1) b = front ++ a :: b :: back := by
  induction front with
  | nil => simp
  | cons x front ih =>
    rw [List.cons_append, List.length_cons, List.insertIdx_succ_cons, ih, List.cons_append]

theorem lows_insert (i : Nat) (key : Key) (right : Ptr) :
    (c.insert i key right).lows = c.lows.insertIdx (i + 1) (sepRank key) := by
  unfold lows insert
  rw [List.insertIdx_succ_cons, List.map_insertIdx]

theorem kids_insert (arity : c.pointers.length = c.lows.length)
    (kids : c.kids = u ++ (lo, left) :: v) (key : Key) (right : Ptr) :
    (c.insert u.length key right).kids = u ++ (lo, left) :: (sepRank key, right) :: v := by
  have lows : c.lows = u.map Prod.fst ++ lo :: v.map Prod.fst := by
    rw [← map_fst_kids arity, kids]
    simp
  have pointers : c.pointers = u.map Prod.snd ++ left :: v.map Prod.snd := by
    rw [← map_snd_kids arity, kids]
    simp
  have lows' : (c.insert u.length key right).lows =
      u.map Prod.fst ++ lo :: sepRank key :: v.map Prod.fst := by
    rw [lows_insert, lows]
    have := insertIdx_mid (u.map Prod.fst) (v.map Prod.fst) lo (sepRank key)
    rwa [List.length_map] at this
  have pointers' : (c.insert u.length key right).pointers =
      u.map Prod.snd ++ left :: right :: v.map Prod.snd := by
    change c.pointers.insertIdx _ _ = _
    rw [pointers]
    have := insertIdx_mid (u.map Prod.snd) (v.map Prod.snd) left right
    rwa [List.length_map] at this
  unfold Cell.kids
  rw [lows', pointers', List.zip_append (by simp)]
  simp [List.zip_map']

theorem insert_arity (arity : c.pointers.length = c.lows.length) {i : Nat}
    (le : i ≤ c.keys.length) (key : Key) (right : Ptr) :
    (c.insert i key right).pointers.length = (c.insert i key right).lows.length := by
  rw [lows_insert]
  change (c.pointers.insertIdx _ _).length = _
  rw [length_lows] at arity
  rw [List.length_insertIdx_of_le_length (by omega),
    List.length_insertIdx_of_le_length (by rw [length_lows]; omega), length_lows, arity]

/-- The part before a separator. -/
def leftPart (c : Cell) (split : Nat) : Cell :=
  { c with keys := c.keys.take (split - 1), pointers := c.pointers.take split }

/-- The part behind a separator, at another place. -/
def rightPart (c : Cell) (split : Nat) (key : Key) (a : Ptr) : Cell :=
  ⟨a, sepRank key, c.keys.drop split, c.pointers.drop split⟩

theorem kids_leftPart {split : Nat} (pos : 0 < split) :
    (c.leftPart split).kids = c.kids.take split := by
  obtain ⟨k, rfl⟩ : ∃ k, split = k + 1 := ⟨split - 1, by omega⟩
  unfold kids lows leftPart
  rw [List.zip_eq_zipWith, List.zip_eq_zipWith, List.take_zipWith, List.take_succ_cons, List.map_take,
    Nat.add_sub_cancel]

theorem kids_rightPart {split : Nat} {key : Key} (pos : 0 < split)
    (at_ : c.keys[split - 1]? = some key) (a : Ptr) :
    (c.rightPart split key a).kids = c.kids.drop split := by
  obtain ⟨k, rfl⟩ : ∃ k, split = k + 1 := ⟨split - 1, by omega⟩
  rw [Nat.add_sub_cancel] at at_
  obtain ⟨lt, rfl⟩ := List.getElem?_eq_some_iff.mp at_
  unfold kids lows rightPart
  rw [List.zip_eq_zipWith, List.zip_eq_zipWith, List.drop_zipWith, List.drop_succ_cons, ← List.map_drop,
    List.drop_eq_getElem_cons lt, List.map_cons]

end Cell

/-! ### Levels -/

/-- Each node of a level points to the next one, and the last one to nothing. -/
def Linked (next : Ptr → Ptr) : List Ptr → Prop
  | [] => True
  | a :: rest => next a = rest.headD null ∧ Linked next rest

theorem Linked.congr {next next' : Ptr → Ptr} {l : List Ptr} (h : Linked next l)
    (same : ∀ a ∈ l, next' a = next a) : Linked next' l := by
  induction l with
  | nil => trivial
  | cons a rest ih =>
    refine ⟨?_, ih h.2 fun b hb => same b (List.mem_cons_of_mem _ hb)⟩
    rw [same a List.mem_cons_self]
    exact h.1

/-- A node comes behind another one. -/
theorem Linked.split {next next' : Ptr → Ptr} {front back : List Ptr} {a b : Ptr}
    (h : Linked next (front ++ a :: back)) (nodup : (front ++ a :: b :: back).Nodup)
    (first : next' a = b) (second : next' b = next a)
    (same : ∀ x ∈ front ++ back, next' x = next x) : Linked next' (front ++ a :: b :: back) := by
  induction front with
  | nil =>
    refine ⟨first, ?_, h.2.congr same⟩
    rw [second]
    exact h.1
  | cons x front ih =>
    refine ⟨?_, ih h.2 (List.nodup_cons.mp nodup).2 fun y hy => same y (List.mem_cons_of_mem _ hy)⟩
    rw [same x List.mem_cons_self]
    cases front with
    | nil => exact h.1
    | cons y front => exact h.1

/-- The levels above a level of which the nodes and their lower bounds are given. -/
def Above (order : Nat) (s : IndexBtree) : List (Nat × Ptr) → List Level → Prop
  | below, [] => ∃ a, below = [(0, a)] ∧ (s.node a).parent = null ∧ s.root = a
  | below, level :: up =>
    below = level.flatMap Cell.kids ∧
      (∀ c ∈ level, c.Holds order s false ∧ c.keys ≠ [] ∧
        ∀ p ∈ c.pointers, (s.node p).parent = c.addr) ∧
      Linked (fun a => (s.node a).next) (level.map Cell.addr) ∧
      Above order s (level.map Cell.bound) up

theorem mem_addrs_cons {level : Level} {up : List Level} {a : Ptr} :
    a ∈ addrs (level :: up) ↔ a ∈ level.map Cell.addr ∨ a ∈ addrs up := by
  simp [addrs]

/-- Levels are levels still if their nodes are as before and the nodes below have the parents
that they had. -/
theorem Above.frame {below : List (Nat × Ptr)} {up : List Level} (above : Above order s below up)
    (root : s'.root = s.root) (nodes : ∀ a ∈ addrs up, s'.node a = s.node a)
    (parents : ∀ e ∈ below, (s'.node e.2).parent = (s.node e.2).parent) :
    Above order s' below up := by
  induction up generalizing below with
  | nil =>
    obtain ⟨a, rfl, none, top⟩ := above
    refine ⟨a, rfl, ?_, root.trans top⟩
    rw [parents (0, a) List.mem_cons_self]
    exact none
  | cons level up ih =>
    obtain ⟨split, holds, linked, above⟩ := above
    have same (c : Cell) (hc : c ∈ level) : s'.node c.addr = s.node c.addr :=
      nodes _ (mem_addrs_cons.mpr (.inl (List.mem_map_of_mem hc)))
    refine ⟨split, ?_, ?_, ?_⟩
    · intro c hc
      obtain ⟨cell, some, children⟩ := holds c hc
      refine ⟨cell.kept (.of_eq (same c hc)), some, fun p hp => ?_⟩
      obtain ⟨lo, mem⟩ := (Cell.mem_kids_snd cell.length_pointers).mp hp
      have below_mem : (lo, p) ∈ below := by
        rw [split]
        exact List.mem_flatMap.mpr ⟨c, hc, mem⟩
      rw [parents _ below_mem]
      exact children p hp
    · refine linked.congr fun a ha => ?_
      rw [nodes a (mem_addrs_cons.mpr (.inl ha))]
    · apply ih above (fun a ha => nodes a (mem_addrs_cons.mpr (.inr ha)))
      intro e he
      obtain ⟨c, hc, rfl⟩ := List.mem_map.mp he
      rw [show c.bound.2 = c.addr from rfl, same c hc]

/-- An entry of a list that is put together has come from one part. -/
theorem exists_part {α β : Type} {f : β → List α} {l : List β} {front back : List α} {a : α}
    (h : front ++ a :: back = l.flatMap f) :
    ∃ l₁ b l₂ u v, l = l₁ ++ b :: l₂ ∧ f b = u ++ a :: v ∧ front = l₁.flatMap f ++ u ∧
      back = v ++ l₂.flatMap f := by
  induction l generalizing front with
  | nil => simp at h
  | cons b l ih =>
    rw [List.flatMap_cons] at h
    rcases List.append_eq_append_iff.mp h with ⟨m, part, rest⟩ | ⟨m, rfl, rest⟩
    · cases m with
      | nil =>
        rw [List.append_nil] at part
        rw [List.nil_append] at rest
        have start : [] ++ a :: back = l.flatMap f := rest
        obtain ⟨l₁, b', l₂, u, v, rfl, part', rfl', rfl⟩ := ih start
        refine ⟨b :: l₁, b', l₂, u, v, rfl, part', ?_, rfl⟩
        rw [List.flatMap_cons, List.append_assoc, ← rfl', List.append_nil, part]
      | cons x m =>
        rw [List.cons_append] at rest
        obtain ⟨rfl, behind⟩ := List.cons.inj rest
        exact ⟨[], b, l, front, m, rfl, part, rfl, behind⟩
    · obtain ⟨l₁, b', l₂, u, v, rfl, part', rfl, rfl⟩ := ih rest.symm
      refine ⟨b :: l₁, b', l₂, u, v, rfl, part', ?_, rfl⟩
      rw [List.flatMap_cons, List.append_assoc]

end DBx1000.Btree
