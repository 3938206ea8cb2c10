import Mathlib.Data.List.Nodup
import DBx1000.Library.Assoc
import DBx1000.Bskiplist.Alone

/-!
# The levels of the B-skiplist

A level is a list of cells: the nodes that one level links, each with its elements. `Linked` says
that the memory has the level, and `Shape` what holds between the levels: the elements of a level
are the first keys of nodes of the level below it, with their addresses.
-/

namespace DBx1000.Bskiplist

open Program Hocc

/-- A node with its elements. -/
structure Cell where
  addr : Addr
  entries : List (Key × Nat)

/-- The first key, or the one behind all keys if there is none. -/
def firstKey (es : List (Key × Nat)) : Key := (es.map Prod.fst).headD keyMax

namespace Cell

def first (c : Cell) : Key := firstKey c.entries

def keys (c : Cell) : List Key := c.entries.map Prod.fst

/-- What the element above a node, and the node before it, have of it. -/
def bound (c : Cell) : Key × Addr := (c.first, c.addr)

end Cell

def bounds (cells : List Cell) : List (Key × Addr) := cells.map Cell.bound

/-- The elements of a level. -/
def flat (cells : List Cell) : List (Key × Nat) := cells.flatMap Cell.entries

/-- What the node before these cells has in `next_header` and `next`. -/
def link : List Cell → Key × Addr
  | [] => (keyMax, null)
  | c :: _ => c.bound

/-- The memory has the cell on this level, before the node of `after`. -/
structure Cell.Held (node : Addr → Node) (level : Nat) (after : Key × Addr) (c : Cell) : Prop where
  elems : (node c.addr).Elems c.entries
  level : (node c.addr).level = level
  nextHeader : (node c.addr).nextHeader = after.1
  next : (node c.addr).next = after.2
  some : c.entries ≠ []
  few : c.entries.length ≤ capacity

/-- The memory links these cells on this level, to the end of the level. -/
def Linked (node : Addr → Node) (level : Nat) : List Cell → Prop
  | [] => True
  | c :: rest => c.Held node level (link rest) ∧ Linked node level rest

variable {node node' : Addr → Node} {level : Nat} {cells front mid mid' back : List Cell}
  {c d : Cell} {key : Key}

theorem flat_append (front back : List Cell) : flat (front ++ back) = flat front ++ flat back :=
  List.flatMap_append

theorem flat_cons (c : Cell) (back : List Cell) : flat (c :: back) = c.entries ++ flat back := rfl

theorem mem_flat {e : Key × Nat} : e ∈ flat cells ↔ ∃ c ∈ cells, e ∈ c.entries :=
  List.mem_flatMap

theorem mem_bounds {b : Key × Addr} :
    b ∈ bounds cells ↔ ∃ c ∈ cells, c.first = b.1 ∧ c.addr = b.2 := by
  simp only [bounds, List.mem_map, Cell.bound, Prod.ext_iff]

theorem Linked.suffix (h : Linked node level (front ++ back)) : Linked node level back := by
  induction front with
  | nil => exact h
  | cons c front ih => exact ih h.2

theorem Linked.held (h : Linked node level (front ++ c :: back)) :
    c.Held node level (link back) :=
  h.suffix.1

theorem Linked.held_of_mem (h : Linked node level cells) (mem : c ∈ cells) :
    ∃ after, c.Held node level after := by
  obtain ⟨front, back, rfl⟩ := List.append_of_mem mem
  exact ⟨_, h.held⟩

theorem Cell.Held.congr {after : Key × Addr} (h : c.Held node level after)
    (same : node' c.addr = node c.addr) : c.Held node' level after := by
  obtain ⟨elems, onLevel, header, next, some, few⟩ := h
  rw [← same] at elems onLevel header next
  exact ⟨elems, onLevel, header, next, some, few⟩

theorem Linked.congr (h : Linked node level cells)
    (same : ∀ c ∈ cells, node' c.addr = node c.addr) : Linked node' level cells := by
  induction cells with
  | nil => trivial
  | cons c rest ih =>
    exact ⟨h.1.congr (same c List.mem_cons_self),
      ih h.2 fun d hd => same d (List.mem_cons_of_mem c hd)⟩

/-- A part of the level is replaced by other cells with the same first one. -/
theorem Linked.replace (h : Linked node level (front ++ mid ++ back))
    (same : ∀ c ∈ front, node' c.addr = node c.addr)
    (first : link (mid' ++ back) = link (mid ++ back))
    (new : Linked node' level (mid' ++ back)) : Linked node' level (front ++ mid' ++ back) := by
  induction front with
  | nil => exact new
  | cons c front ih =>
    have rest := ih h.2 fun d hd => same d (List.mem_cons_of_mem c hd)
    refine ⟨?_, rest⟩
    have here := h.1.congr (same c List.mem_cons_self)
    have next : link (front ++ mid' ++ back) = link (front ++ mid ++ back) := by
      cases front with
      | nil => exact first
      | cons d front => rfl
    exact next ▸ here

/-! ### The place of a key -/

/-- The cell of the level in which a key is, or would be. -/
structure Cut (key : Key) (cells front : List Cell) (c : Cell) (back : List Cell) : Prop where
  cells : cells = front ++ c :: back
  low : c.first ≤ key
  high : key < (link back).1

/-- The elements of a node up to a key, and those behind it. -/
structure Split (key : Key) (es u : List (Key × Nat)) (e : Key × Nat) (v : List (Key × Nat)) :
    Prop where
  entries : es = u ++ e :: v
  low : e.1 ≤ key
  high : ∀ x ∈ v, key < x.1

/-- The keys of these elements increase. -/
def Increasing (es : List (Key × Nat)) : Prop := Assoc.Ascending es

section Order

variable {es u v : List (Key × Nat)} {e : Key × Nat}

theorem exists_cons (some : es ≠ []) : ∃ slot rest, es = (firstKey es, slot) :: rest := by
  cases es with
  | nil => exact absurd rfl some
  | cons e rest => exact ⟨e.2, rest, rfl⟩

theorem firstKey_mem (some : es ≠ []) : ∃ slot, (firstKey es, slot) ∈ es := by
  cases es with
  | nil => exact absurd rfl some
  | cons e rest => exact ⟨e.2, List.mem_cons_self⟩

theorem firstKey_append (some : u ≠ []) (v : List (Key × Nat)) :
    firstKey (u ++ v) = firstKey u := by
  cases u with
  | nil => exact absurd rfl some
  | cons e u => rfl

theorem Increasing.first_le (sorted : Increasing es) (mem : e ∈ es) : firstKey es ≤ e.1 := by
  cases es with
  | nil => cases mem
  | cons d rest =>
    rcases List.mem_cons.mp mem with rfl | mem
    · exact Nat.le_refl e.1
    · exact Nat.le_of_lt (List.rel_of_pairwise_cons sorted mem)

/-- The rank of a key splits the elements. -/
theorem Node.Elems.split {m : Mem} {n : Addr} {r : Nat} (h : (m.node n).Elems es)
    (rank : IsRank m n es.length key r) (some : es ≠ []) (low : firstKey es ≤ key) :
    ∃ u e v, Split key es u e v ∧ u.length = r := by
  obtain ⟨is, behind⟩ := rank
  have lt : r < es.length := by
    rcases is with ⟨lt, -⟩ | rfl
    · exact lt
    · exact List.length_pos_iff.mpr some
  have small : es[r].1 ≤ key := by
    rcases is with ⟨-, small⟩ | rfl
    · rwa [h.keys r lt] at small
    · cases es with
      | nil => cases lt
      | cons d rest => exact low
  refine ⟨es.take r, es[r], es.drop (r + 1), ⟨?_, small, ?_⟩, ?_⟩
  · rw [← List.drop_eq_getElem_cons lt, List.take_append_drop]
  · intro x hx
    obtain ⟨j, ltJ, rfl⟩ := List.mem_drop_iff_getElem.mp hx
    rw [← h.keys (r + 1 + j) (by omega)]
    exact behind _ (by omega) (by omega)
  · rw [List.length_take, Nat.min_eq_left (Nat.le_of_lt lt)]

theorem Node.Elems.head {d : Node} (h : d.Elems es) (some : es ≠ []) :
    d.keys 0 = firstKey es ∧ (firstKey es, d.slots 0) ∈ es := by
  cases es with
  | nil => exact absurd rfl some
  | cons e rest =>
    have pos : 0 < (e :: rest).length := Nat.succ_pos _
    refine ⟨h.keys 0 pos, ?_⟩
    rw [h.slots 0 pos]
    exact List.mem_cons_self

theorem Node.Elems.sorted {m : Mem} {n : Addr} (h : (m.node n).Elems es)
    (sorted : Increasing es) : Sorted m n es.length := by
  intro i j le lt
  rw [h.keys i (Nat.lt_of_le_of_lt le lt), h.keys j lt]
  rcases Nat.eq_or_lt_of_le le with rfl | lt'
  · exact Nat.le_refl _
  · exact Nat.le_of_lt (List.pairwise_iff_getElem.mp sorted i j _ lt lt')

theorem Node.Elems.unique {d : Node} {es' : List (Key × Nat)} (h : d.Elems es) (h' : d.Elems es') :
    es = es' := by
  refine List.ext_getElem (h.numElts.symm.trans h'.numElts) fun i lt lt' => ?_
  exact Prod.ext ((h.keys i lt).symm.trans (h'.keys i lt'))
    ((h.slots i lt).symm.trans (h'.slots i lt'))

theorem Increasing.entries (sorted : Increasing (flat cells)) (mem : c ∈ cells) :
    Increasing c.entries := by
  obtain ⟨front, back, rfl⟩ := List.append_of_mem mem
  rw [flat_append, flat_cons] at sorted
  exact (List.pairwise_append.mp (List.pairwise_append.mp sorted).2.1).1

theorem Increasing.suffix (sorted : Increasing (flat (front ++ back))) :
    Increasing (flat back) := by
  rw [flat_append] at sorted
  exact (List.pairwise_append.mp sorted).2.1

theorem Increasing.tail (sorted : Increasing (flat (c :: back))) : Increasing (flat back) := by
  have split : Increasing (flat ([c] ++ back)) := sorted
  exact split.suffix

/-- A key is an element exactly if it is the one that splits the elements. -/
theorem Split.mem_iff (split : Split key es u e v) (sorted : Increasing es) :
    key ∈ es.map Prod.fst ↔ e.1 = key := by
  obtain ⟨rfl, low, high⟩ := split
  constructor
  · intro mem
    obtain ⟨x, inside, rfl⟩ := List.mem_map.mp mem
    obtain ⟨-, -, before⟩ := List.pairwise_append.mp sorted
    rcases List.mem_append.mp inside with inside | inside
    · exact absurd (before x inside e List.mem_cons_self) (Nat.not_lt.mpr low)
    · rcases List.mem_cons.mp inside with rfl | inside
      · rfl
      · exact absurd (high x inside) (Nat.lt_irrefl _)
  · rintro rfl
    exact List.mem_map_of_mem (List.mem_append_right u List.mem_cons_self)

end Order

/-- The elements of the level before and behind a key. -/
theorem Cut.split {u v : List (Key × Nat)} {e : Key × Nat} (cut : Cut key cells front c back)
    (split : Split key c.entries u e v) (sorted : Increasing (flat cells))
    (some : ∀ d ∈ cells, d.entries ≠ []) :
    Split key (flat cells) (flat front ++ u) e (v ++ flat back) := by
  obtain ⟨rfl, -, high⟩ := cut
  refine ⟨?_, split.low, ?_⟩
  · rw [flat_append, flat_cons, split.entries]
    simp only [List.append_assoc, List.cons_append]
  · intro x hx
    rcases List.mem_append.mp hx with mem | mem
    · exact split.high x mem
    · -- the next header is not behind the keys of the next nodes
      cases back with
      | nil => cases mem
      | cons d back =>
        rw [flat_append, flat_cons, ← List.append_assoc] at sorted
        have behind : Increasing (flat (d :: back)) := (List.pairwise_append.mp sorted).2.1
        have first := behind.first_le mem
        rw [flat_cons, firstKey_append (some d (by simp))] at first
        exact Nat.lt_of_lt_of_le high first

/-! ### Addresses -/

theorem Linked.eq_of_addr (h : Linked node level cells) (hc : c ∈ cells) (hd : d ∈ cells)
    (eq : c.addr = d.addr) : c = d := by
  obtain ⟨after, heldC⟩ := h.held_of_mem hc
  obtain ⟨after', heldD⟩ := h.held_of_mem hd
  have elems := heldC.elems
  rw [eq] at elems
  cases c
  cases d
  simp only [Cell.mk.injEq]
  exact ⟨eq, elems.unique heldD.elems⟩

theorem Linked.some (h : Linked node level cells) : ∀ c ∈ cells, c.entries ≠ [] := by
  intro c hc
  obtain ⟨after, held⟩ := h.held_of_mem hc
  exact held.some

theorem Increasing.nodup (sorted : Increasing (flat cells)) (some : ∀ c ∈ cells, c.entries ≠ []) :
    cells.Nodup := by
  induction cells with
  | nil => exact List.nodup_nil
  | cons c cells ih =>
    rw [flat_cons] at sorted
    obtain ⟨-, rest, before⟩ := List.pairwise_append.mp sorted
    refine List.nodup_cons.mpr
      ⟨fun mem => ?_, ih rest fun d hd => some d (List.mem_cons_of_mem c hd)⟩
    obtain ⟨slot, es, eq⟩ := exists_cons (some c List.mem_cons_self)
    have inside : (firstKey c.entries, slot) ∈ c.entries := by
      rw [eq]
      exact List.mem_cons_self
    exact Nat.lt_irrefl _ (before _ inside _ (mem_flat.mpr ⟨c, mem, inside⟩))

theorem Linked.nodup (h : Linked node level cells) (sorted : Increasing (flat cells)) :
    (cells.map Cell.addr).Nodup :=
  List.Nodup.map_on (fun _ hc _ hd eq => h.eq_of_addr hc hd eq) (sorted.nodup h.some)

/-! ### All levels -/

/-- The cells of each level. -/
abbrev Levels := Nat → List Cell

/-- The memory has this level, with its keys in order, and nobody holds a node of it. -/
structure Stands (m : Mem) (level : Nat) (cells : List Cell) : Prop where
  linked : Linked m.node level cells
  sorted : Increasing (flat cells)
  known : ∀ c ∈ cells, c.addr ≠ null ∧ c.addr < m.fresh
  idle : ∀ c ∈ cells, Idle (m.ctrl c.addr)

/-- What holds between the elements and nodes of the levels. -/
structure Shape (list : Bsl) (lv : Levels) : Prop where
  head : ∀ l < maxLevel, (bounds (lv l)).head? = some (keyMin, list l)
  small : ∀ e ∈ flat (lv 0), e.1 < keyMax
  /-- The elements above the leaves are the first keys of nodes on the next level. -/
  children : ∀ l, l + 1 < maxLevel → ∀ e ∈ flat (lv (l + 1)), e ∈ bounds (lv l)
  /-- A key is on the levels up to its own. -/
  keys : ∀ l < maxLevel, ∀ k, k ∈ (flat (lv l)).map Prod.fst ↔
    k ∈ (flat (lv 0)).map Prod.fst ∧ (k = keyMin ∨ l ≤ levelForKey k)

/-- The memory has a well formed list with these levels. -/
structure HasLevels (list : Bsl) (lv : Levels) (m : Mem) : Prop where
  shape : Shape list lv
  stands : ∀ l < maxLevel, Stands m l (lv l)

variable {m : Mem} {list : Bsl} {lv : Levels} {l : Nat}

theorem Stands.suffix (h : Stands m level (front ++ back)) : Stands m level back where
  linked := h.linked.suffix
  sorted := h.sorted.suffix
  known c hc := h.known c (List.mem_append_right front hc)
  idle c hc := h.idle c (List.mem_append_right front hc)

theorem Stands.head (h : Stands m level (c :: back)) : c.Held m.node level (link back) := h.linked.1

theorem Stands.tail (h : Stands m level (c :: back)) : Stands m level back := by
  have split : Stands m level ([c] ++ back) := h
  exact split.suffix

/-- The node of an element above the leaves. -/
theorem HasLevels.child (h : HasLevels list lv m) (lt : l + 1 < maxLevel) {e : Key × Nat}
    (mem : e ∈ flat (lv (l + 1))) : ∃ d ∈ lv l, d.first = e.1 ∧ d.addr = e.2 :=
  mem_bounds.mp (h.shape.children l lt e mem)

/-- Nodes of different levels are different. -/
theorem HasLevels.addr_ne (h : HasLevels list lv m) {l' : Nat} (lt : l < maxLevel)
    (lt' : l' < maxLevel) (ne : l ≠ l') (hc : c ∈ lv l) (hd : d ∈ lv l') : c.addr ≠ d.addr := by
  intro eq
  obtain ⟨after, heldC⟩ := (h.stands l lt).linked.held_of_mem hc
  obtain ⟨after', heldD⟩ := (h.stands l' lt').linked.held_of_mem hd
  exact ne (heldC.level.symm.trans (eq ▸ heldD.level))

/-- The first node of a level. -/
theorem HasLevels.head (h : HasLevels list lv m) (lt : l < maxLevel) :
    ∃ d rest, lv l = d :: rest ∧ d.first = keyMin ∧ d.addr = list l := by
  have head := h.shape.head l lt
  cases eq : lv l with
  | nil => simp [eq, bounds] at head
  | cons d rest =>
    rw [eq] at head
    obtain ⟨first, addr⟩ := Prod.mk.inj (Option.some.inj head)
    exact ⟨d, rest, rfl, first, addr⟩

end DBx1000.Bskiplist
