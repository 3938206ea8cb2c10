import DBx1000.Bskiplist.Cells

/-!
# Keys that come and go

What an insertion and a deletion do to the levels, without the memory: a key becomes an element
of all levels up to its own, with a node that begins with it on those below; or it is no element
any more. Both keep the shape of the levels.
-/

namespace DBx1000.Bskiplist

variable {list : Bsl} {lv lv' : Levels} {l top : Nat} {key : Key} {slot : Nat} {new : Addr → Prop}
  {cells cells' front back : List Cell} {c : Cell} {e : Key × Nat} {u v : List (Key × Nat)}

theorem bounds_append (front back : List Cell) :
    bounds (front ++ back) = bounds front ++ bounds back := List.map_append

theorem bounds_cons (c : Cell) (back : List Cell) :
    bounds (c :: back) = c.bound :: bounds back := rfl

theorem head?_bounds (front : List Cell) {mid mid' : List Cell}
    (head : (bounds mid').head? = (bounds mid).head?) :
    (bounds (front ++ mid')).head? = (bounds (front ++ mid)).head? := by
  cases front with
  | nil => exact head
  | cons c front => rfl

/-! ### A key comes -/

/-- The key has become an element of a level; nodes are there as before, with the same first
keys, and perhaps some with new addresses. -/
structure Grown (key : Key) (slot : Nat) (new : Addr → Prop) (cells cells' : List Cell) : Prop where
  flat : ∃ p q, flat cells = p ++ q ∧ flat cells' = p ++ (key, slot) :: q ∧
    (∀ e ∈ p, e.1 < key) ∧ ∀ e ∈ q, key < e.1
  bounds : ∀ b ∈ bounds cells, b ∈ bounds cells'
  head : (Bskiplist.bounds cells').head? = (Bskiplist.bounds cells).head?
  addrs : ∀ c ∈ cells', c.addr ∈ cells.map Cell.addr ∨ new c.addr

theorem Grown.keys (h : Grown key slot new cells cells') (k : Key) :
    k ∈ (Bskiplist.flat cells').map Prod.fst ↔
      k = key ∨ k ∈ (Bskiplist.flat cells).map Prod.fst := by
  obtain ⟨p, q, eq, eq', -, -⟩ := h.flat
  rw [eq, eq']
  simp only [List.map_append, List.map_cons, List.mem_append, List.mem_cons]
  exact or_left_comm

theorem Grown.mem_flat (h : Grown key slot new cells cells') (e : Key × Nat) :
    e ∈ Bskiplist.flat cells' ↔ e = (key, slot) ∨ e ∈ Bskiplist.flat cells := by
  obtain ⟨p, q, eq, eq', -, -⟩ := h.flat
  rw [eq, eq']
  simp only [List.mem_append, List.mem_cons]
  exact or_left_comm

theorem Grown.increasing (h : Grown key slot new cells cells')
    (sorted : Increasing (Bskiplist.flat cells)) : Increasing (Bskiplist.flat cells') := by
  obtain ⟨p, q, eq, eq', before, behind⟩ := h.flat
  rw [eq] at sorted
  rw [eq']
  obtain ⟨front, back, cross⟩ := List.pairwise_append.mp sorted
  refine List.pairwise_append.mpr ⟨front, List.pairwise_cons.mpr ⟨behind, back⟩, ?_⟩
  intro x hx y hy
  rcases List.mem_cons.mp hy with rfl | hy
  · exact before x hx
  · exact cross x hx y hy

theorem Grown.imp {new' : Addr → Prop} (h : Grown key slot new cells cells')
    (sub : ∀ a, new a → new' a) : Grown key slot new' cells cells' :=
  ⟨h.flat, h.bounds, h.head, fun c hc => (h.addrs c hc).imp_right (sub c.addr)⟩

/-- The same elements in more nodes, before the key comes. -/
theorem Grown.of_parts {parts : List Cell} {old : Addr → Prop}
    (h : Grown key slot new parts cells')
    (same : Bskiplist.flat parts = Bskiplist.flat cells)
    (more : ∀ b ∈ Bskiplist.bounds cells, b ∈ Bskiplist.bounds parts)
    (head : (Bskiplist.bounds parts).head? = (Bskiplist.bounds cells).head?)
    (addrs : ∀ c ∈ parts, c.addr ∈ cells.map Cell.addr ∨ old c.addr) :
    Grown key slot (fun a => new a ∨ old a) cells cells' where
  flat := same ▸ h.flat
  bounds b hb := h.bounds b (more b hb)
  head := h.head.trans head
  addrs c hc := by
    rcases h.addrs c hc with mem | isNew
    · obtain ⟨d, hd, eq⟩ := List.mem_map.mp mem
      rw [← eq]
      exact (addrs d hd).imp_right .inr
    · exact .inr (.inl isNew)

section Place

variable (cut : Cut key cells front c back) (split : Split key c.entries u e v)
  (sorted : Increasing (flat cells)) (some : ∀ d ∈ cells, d.entries ≠ []) (absent : e.1 ≠ key)

include cut split sorted some absent

/-- The elements of a level around a key that is not there. -/
theorem Cut.around : (∀ x ∈ flat front ++ u ++ [e], x.1 < key) ∧ (∀ x ∈ v ++ flat back, key < x.1) ∧
    flat cells = (flat front ++ u ++ [e]) ++ (v ++ flat back) := by
  have whole := cut.split split sorted some
  refine ⟨?_, whole.high, ?_⟩
  · intro x hx
    have lt : e.1 < key := Nat.lt_of_le_of_ne whole.low absent
    rw [whole.entries] at sorted
    rcases List.mem_append.mp hx with mem | mem
    · exact Nat.lt_trans ((List.pairwise_append.mp sorted).2.2 x mem e List.mem_cons_self) lt
    · rw [List.mem_singleton.mp mem]
      exact lt
  · rw [whole.entries]
    simp only [List.append_assoc, List.singleton_append]

/-- The key is inserted behind the element before it. -/
theorem Cut.grown_insert (slot : Nat) : Grown key slot (fun _ => False) cells
    (front ++ ⟨c.addr, u ++ e :: (key, slot) :: v⟩ :: back) := by
  obtain ⟨before, behind, whole⟩ := cut.around split sorted some absent
  have first : (Cell.mk c.addr (u ++ e :: (key, slot) :: v)).bound = c.bound := by
    rw [Cell.bound, Cell.bound, Cell.first, Cell.first, split.entries]
    cases u with
    | nil => rfl
    | cons x u => rfl
  refine ⟨⟨_, _, whole, ?_, before, behind⟩, fun b hb => ?_, ?_, fun d hd => ?_⟩
  · rw [flat_append, flat_cons]
    simp only [List.append_assoc, List.cons_append, List.nil_append]
  · rw [cut.cells, bounds_append, bounds_cons] at hb
    rw [bounds_append, bounds_cons, first]
    exact hb
  · rw [cut.cells]
    apply head?_bounds
    rw [bounds_cons, bounds_cons, first]
  · refine .inl ?_
    rw [cut.cells]
    simp only [List.map_append, List.map_cons, List.mem_append, List.mem_cons, List.mem_map] at hd ⊢
    rcases hd with mem | rfl | mem
    · exact .inl ⟨d, mem, rfl⟩
    · exact .inr (.inl rfl)
    · exact .inr (.inr ⟨d, mem, rfl⟩)

/-- A new node begins with the key and has what was behind it. -/
theorem Cut.grown_split (slot : Nat) (a : Addr) : Grown key slot (· = a) cells
      (front ++ ⟨c.addr, u ++ [e]⟩ :: ⟨a, (key, slot) :: v⟩ :: back) ∧
    (key, a) ∈ bounds (front ++ ⟨c.addr, u ++ [e]⟩ :: ⟨a, (key, slot) :: v⟩ :: back) := by
  obtain ⟨before, behind, whole⟩ := cut.around split sorted some absent
  have first : (Cell.mk c.addr (u ++ [e])).bound = c.bound := by
    rw [Cell.bound, Cell.bound, Cell.first, Cell.first, split.entries]
    cases u with
    | nil => rfl
    | cons x u => rfl
  refine ⟨⟨⟨_, _, whole, ?_, before, behind⟩, fun b hb => ?_, ?_, fun d hd => ?_⟩, ?_⟩
  · -- the elements
    rw [flat_append, flat_cons, flat_cons]
    simp only [List.append_assoc, List.cons_append, List.nil_append]
  · -- the bounds of the level are still there
    rw [cut.cells, bounds_append, bounds_cons] at hb
    rw [bounds_append, bounds_cons, bounds_cons, first]
    rcases List.mem_append.mp hb with mem | mem
    · exact List.mem_append_left _ mem
    · refine List.mem_append_right _ ?_
      rcases List.mem_cons.mp mem with rfl | mem
      · exact List.mem_cons_self
      · exact List.mem_cons_of_mem _ (List.mem_cons_of_mem _ mem)
  · -- the first one is that of the sentinel
    rw [cut.cells]
    apply head?_bounds
    rw [bounds_cons, bounds_cons, first]
    rfl
  · -- and the only new address is `a`
    rw [cut.cells]
    simp only [List.map_append, List.map_cons, List.mem_append, List.mem_cons, List.mem_map] at hd ⊢
    rcases hd with mem | rfl | rfl | mem
    · exact .inl (.inl ⟨d, mem, rfl⟩)
    · exact .inl (.inr (.inl rfl))
    · exact .inr rfl
    · exact .inl (.inr (.inr ⟨d, mem, rfl⟩))
  · rw [bounds_append, bounds_cons, bounds_cons]
    exact List.mem_append_right _ (List.mem_cons_of_mem _ List.mem_cons_self)

end Place

/-! ### A node becomes two -/

/-- The cells of a level of which one has been divided. -/
def halves (front : List Cell) (c : Cell) (half : Nat) (a : Addr) (back : List Cell) : List Cell :=
  front ++ ⟨c.addr, c.entries.take half⟩ :: ⟨a, c.entries.drop half⟩ :: back

section Halves

variable {half : Nat} (a : Addr) (pos : 0 < half)

theorem flat_halves : flat (halves front c half a back) = flat (front ++ c :: back) := by
  rw [halves, flat_append, flat_cons, flat_cons, flat_append, flat_cons,
    ← List.append_assoc _ _ (flat back), List.take_append_drop]

include pos in
theorem bound_take : (Cell.mk c.addr (c.entries.take half)).bound = c.bound := by
  rw [Cell.bound, Cell.bound, Cell.first, Cell.first]
  obtain ⟨half, rfl⟩ := Nat.exists_eq_add_one.mpr pos
  cases c.entries with
  | nil => rfl
  | cons e es => rfl

include pos in
theorem bounds_halves :
    (∀ b ∈ bounds (front ++ c :: back), b ∈ bounds (halves front c half a back)) ∧
    (bounds (halves front c half a back)).head? = (bounds (front ++ c :: back)).head? := by
  constructor
  · intro b hb
    rw [bounds_append, bounds_cons] at hb
    rw [halves, bounds_append, bounds_cons, bounds_cons, bound_take pos]
    rcases List.mem_append.mp hb with mem | mem
    · exact List.mem_append_left _ mem
    · refine List.mem_append_right _ ?_
      rcases List.mem_cons.mp mem with rfl | mem
      · exact List.mem_cons_self
      · exact List.mem_cons_of_mem _ (List.mem_cons_of_mem _ mem)
  · apply head?_bounds
    rw [bounds_cons, bounds_cons, bound_take pos]
    rfl

theorem addrs_halves : ∀ d ∈ halves front c half a back,
    d.addr ∈ (front ++ c :: back).map Cell.addr ∨ d.addr = a := by
  intro d hd
  simp only [halves, List.map_append, List.map_cons, List.mem_append, List.mem_cons,
    List.mem_map] at hd ⊢
  rcases hd with mem | rfl | rfl | mem
  · exact .inl (.inl ⟨d, mem, rfl⟩)
  · exact .inl (.inr (.inl rfl))
  · exact .inr rfl
  · exact .inl (.inr (.inr ⟨d, mem, rfl⟩))

/-- A key with its place in the first half. -/
theorem Cut.halves_left (cut : Cut key cells front c back) (split : Split key c.entries u e v)
    (inside : u.length + 1 ≤ half) (lt : half < c.entries.length) :
    Cut key (halves front c half a back) front ⟨c.addr, c.entries.take half⟩
        (⟨a, c.entries.drop half⟩ :: back) ∧
      Split key (c.entries.take half) u e (v.take (half - u.length - 1)) := by
  have taken : c.entries.take half = u ++ e :: v.take (half - u.length - 1) := by
    obtain ⟨k, rfl⟩ := Nat.exists_eq_add_of_le inside
    rw [split.entries, List.take_append, List.take_of_length_le (by omega),
      show u.length + 1 + k - u.length = k + 1 by omega, List.take_succ_cons,
      show k + 1 - 1 = k by omega]
  refine ⟨⟨rfl, ?_, ?_⟩, taken, split.low, fun x hx => split.high x (List.mem_of_mem_take hx)⟩
  · have bound : (Cell.mk c.addr (c.entries.take half)).bound = c.bound := bound_take (by omega)
    exact (congrArg Prod.fst bound).trans_le cut.low
  · -- the first key of the second half is behind the key
    rw [show (link _).1 = firstKey (c.entries.drop half) from rfl]
    have rest : c.entries.drop half = v.drop (half - u.length - 1) := by
      rw [split.entries, List.drop_append, List.drop_of_length_le (by omega), List.nil_append,
        show half - u.length = half - u.length - 1 + 1 by omega, List.drop_succ_cons,
        Nat.add_sub_cancel]
    have some : c.entries.drop half ≠ [] := by
      rw [← List.length_pos_iff, List.length_drop]
      omega
    obtain ⟨slot, mem⟩ := firstKey_mem some
    rw [rest] at mem ⊢
    exact split.high _ (List.mem_of_mem_drop mem)

/-- A key with its place in the second half. -/
theorem Cut.halves_right (cut : Cut key cells front c back) (split : Split key c.entries u e v)
    (sorted : Increasing c.entries) (le : half ≤ u.length) :
    Cut key (halves front c half a back) (front ++ [⟨c.addr, c.entries.take half⟩])
        ⟨a, c.entries.drop half⟩ back ∧
      Split key (c.entries.drop half) (u.drop half) e v := by
  have dropped : c.entries.drop half = u.drop half ++ e :: v := by
    rw [split.entries, List.drop_append_of_le_length le]
  refine ⟨⟨?_, ?_, cut.high⟩, dropped, split.low, split.high⟩
  · rw [halves, List.append_assoc, List.singleton_append]
  · have tail : Increasing (c.entries.drop half) := sorted.sublist (List.drop_sublist _ _)
    have mem : e ∈ c.entries.drop half := by
      rw [dropped]
      simp
    exact Nat.le_trans (tail.first_le mem) split.low

end Halves

/-- A key that has come on all levels up to its own leaves the shape. -/
theorem Shape.grown (shape : Shape list lv) (min : keyMin < key) (max : key < keyMax)
    (slot : Nat → Nat) {new : Nat → Addr → Prop}
    (above : ∀ l, levelForKey key < l → lv' l = lv l)
    (grown : ∀ l ≤ levelForKey key, Grown key (slot l) (new l) (lv l) (lv' l))
    (below : ∀ l < levelForKey key, (key, slot (l + 1)) ∈ bounds (lv' l)) : Shape list lv' where
  head l lt := by
    by_cases le : l ≤ levelForKey key
    · exact (grown l le).head.trans (shape.head l lt)
    · rw [above l (Nat.lt_of_not_le le)]
      exact shape.head l lt
  small e he := by
    rcases ((grown 0 (Nat.zero_le _)).mem_flat e).mp he with rfl | mem
    · exact max
    · exact shape.small e mem
  -- the new element has its child, and the bounds that others point to stay
  children l lt e he := by
    have keeps : ∀ b ∈ bounds (lv l), b ∈ bounds (lv' l) := by
      intro b hb
      by_cases le : l ≤ levelForKey key
      · exact (grown l le).bounds b hb
      · -- above the level of the key nothing has changed
        rw [above l (Nat.lt_of_not_le le)]
        exact hb
    by_cases le : l + 1 ≤ levelForKey key
    · rcases ((grown (l + 1) le).mem_flat e).mp he with rfl | mem
      · exact below l le
      · exact keeps e (shape.children l lt e mem)
    · rw [above _ (Nat.lt_of_not_le le)] at he
      exact keeps e (shape.children l lt e he)
  keys l lt k := by
    rw [(grown 0 (Nat.zero_le _)).keys k]
    by_cases le : l ≤ levelForKey key
    · rw [(grown l le).keys k, shape.keys l lt k]
      by_cases isKey : k = key
      · subst isKey
        simp [le]
      · simp [isKey]
    · -- nor does the key belong there
      rw [above l (Nat.lt_of_not_le le), shape.keys l lt k]
      by_cases isKey : k = key
      · subst isKey
        have : ¬(k = keyMin ∨ l ≤ levelForKey k) := by
          rintro (zero | le')
          · exact Nat.ne_of_gt min zero
          · exact le le'
        simp [this]
      · simp [isKey]

/-! ### A key goes -/

/-- The key is not an element of a level any more; nodes that begin with other keys are there as
before. -/
structure Shrunk (key : Key) (cells cells' : List Cell) : Prop where
  flat : ∃ p slot q, flat cells = p ++ (key, slot) :: q ∧ flat cells' = p ++ q
  bounds : ∀ b ∈ bounds cells, b.1 ≠ key → b ∈ bounds cells'
  addrs : ∀ c ∈ cells', c.addr ∈ cells.map Cell.addr

theorem Shrunk.mem_flat (h : Shrunk key cells cells') (sorted : Increasing (Bskiplist.flat cells))
    (e : Key × Nat) : e ∈ Bskiplist.flat cells' ↔ e ∈ Bskiplist.flat cells ∧ e.1 ≠ key := by
  obtain ⟨p, slot, q, eq, eq'⟩ := h.flat
  rw [eq] at sorted
  obtain ⟨-, behind, before⟩ := List.pairwise_append.mp sorted
  rw [eq, eq', List.mem_append, List.mem_append, List.mem_cons]
  constructor
  · rintro (mem | mem)
    · exact ⟨.inl mem, Nat.ne_of_lt (before e mem _ List.mem_cons_self)⟩
    · exact ⟨.inr (.inr mem), Nat.ne_of_gt (List.rel_of_pairwise_cons behind mem)⟩
  · rintro ⟨mem | rfl | mem, ne⟩
    · exact .inl mem
    · exact absurd rfl ne
    · exact .inr mem

theorem Shrunk.keys (h : Shrunk key cells cells') (sorted : Increasing (Bskiplist.flat cells))
    (k : Key) : k ∈ (Bskiplist.flat cells').map Prod.fst ↔
      k ∈ (Bskiplist.flat cells).map Prod.fst ∧ k ≠ key := by
  simp only [List.mem_map, h.mem_flat sorted]
  constructor
  · rintro ⟨e, ⟨mem, ne⟩, rfl⟩
    exact ⟨⟨e, mem, rfl⟩, ne⟩
  · rintro ⟨⟨e, mem, rfl⟩, ne⟩
    exact ⟨e, ⟨mem, ne⟩, rfl⟩

theorem Shrunk.increasing (h : Shrunk key cells cells')
    (sorted : Increasing (Bskiplist.flat cells)) : Increasing (Bskiplist.flat cells') := by
  obtain ⟨p, slot, q, eq, eq'⟩ := h.flat
  rw [eq] at sorted
  rw [eq']
  exact sorted.sublist (List.Sublist.append_left (List.sublist_cons_self _ _) p)

/-- An element behind the first one is removed. -/
theorem shrunk_delete (entries : c.entries = u ++ (key, slot) :: v) (some : u ≠ []) :
    Shrunk key (front ++ c :: back) (front ++ ⟨c.addr, u ++ v⟩ :: back) := by
  have first : (Cell.mk c.addr (u ++ v)).bound = c.bound := by
    rw [Cell.bound, Cell.bound, Cell.first, Cell.first, entries, firstKey_append some,
      firstKey_append some]
  refine ⟨⟨flat front ++ u, slot, v ++ flat back, ?_, ?_⟩, fun b hb _ => ?_, fun d hd => ?_⟩
  · rw [flat_append, flat_cons, entries]
    simp only [List.append_assoc, List.cons_append]
  · rw [flat_append, flat_cons]
    simp only [List.append_assoc]
  · rw [bounds_append, bounds_cons] at hb ⊢
    rw [first]
    exact hb
  · simp only [List.map_append, List.map_cons, List.mem_append, List.mem_cons, List.mem_map] at hd ⊢
    rcases hd with mem | rfl | mem
    · exact .inl ⟨d, mem, rfl⟩
    · exact .inr (.inl rfl)
    · exact .inr (.inr ⟨d, mem, rfl⟩)

/-- The cell without its first element, if it has another one. -/
def Cell.behind (c : Cell) : List Cell :=
  match c.entries.tail with
  | [] => []
  | e :: v => [⟨c.addr, e :: v⟩]

theorem Cell.flat_behind (c : Cell) : flat c.behind = c.entries.tail := by
  unfold behind
  split
  · next none => exact none.symm
  · next e v more =>
    rw [more]
    simp [flat]

theorem Cell.addr_of_mem_behind {d : Cell} (mem : d ∈ c.behind) : d.addr = c.addr := by
  unfold behind at mem
  split at mem
  · cases mem
  · rw [List.mem_singleton.mp mem]

/-- The first element of a node is removed, or the node with it. -/
theorem shrunk_behind (entries : c.entries = (key, slot) :: v) :
    Shrunk key (front ++ c :: back) (front ++ (c.behind ++ back)) := by
  have first : c.first = key := by
    rw [Cell.first, entries]
    rfl
  refine ⟨⟨flat front, slot, v ++ flat back, ?_, ?_⟩, fun b hb ne => ?_, fun d hd => ?_⟩
  · rw [flat_append, flat_cons, entries, List.cons_append]
  · rw [flat_append, flat_append, c.flat_behind, entries, List.tail_cons]
  · rw [bounds_append, bounds_cons] at hb
    rw [bounds_append, bounds_append]
    rcases List.mem_append.mp hb with mem | mem
    · exact List.mem_append_left _ mem
    · rcases List.mem_cons.mp mem with rfl | mem
      · exact absurd first ne
      · exact List.mem_append_right _ (List.mem_append_right _ mem)
  · simp only [List.map_append, List.map_cons, List.mem_append, List.mem_cons, List.mem_map] at hd ⊢
    rcases hd with mem | mem | mem
    · exact .inl ⟨d, mem, rfl⟩
    · exact .inr (.inl (Cell.addr_of_mem_behind mem))
    · exact .inr (.inr ⟨d, mem, rfl⟩)

/-- A key that has gone from all levels up to its own leaves the shape. -/
theorem Shape.shrunk (shape : Shape list lv) (sorted : ∀ l < maxLevel, Increasing (flat (lv l)))
    (min : keyMin < key) (above : ∀ l, levelForKey key < l → lv' l = lv l)
    (shrunk : ∀ l ≤ levelForKey key, Shrunk key (lv l) (lv' l))
    (head : ∀ l ≤ levelForKey key, (bounds (lv' l)).head? = (bounds (lv l)).head?) :
    Shape list lv' where
  head l lt := by
    by_cases le : l ≤ levelForKey key
    · exact (head l le).trans (shape.head l lt)
    · rw [above l (Nat.lt_of_not_le le)]
      exact shape.head l lt
  small e he := by
    have mem := ((shrunk 0 (Nat.zero_le _)).mem_flat (sorted 0 (by decide)) e).mp he
    exact shape.small e mem.1
  children l lt e he := by
    -- above the level of the key there is no element with the key
    have old : e ∈ flat (lv (l + 1)) ∧ (l ≤ levelForKey key → e.1 ≠ key) := by
      by_cases le : l + 1 ≤ levelForKey key
      · have mem := ((shrunk (l + 1) le).mem_flat (sorted _ lt) e).mp he
        exact ⟨mem.1, fun _ => mem.2⟩
      · rw [above _ (Nat.lt_of_not_le le)] at he
        refine ⟨he, fun le' isKey => ?_⟩
        have level := ((shape.keys _ lt e.1).mp (List.mem_map_of_mem he)).2
        rw [isKey] at level
        rcases level with zero | level
        · exact Nat.ne_of_gt min zero
        · exact le level
    -- the child of an element that stays is kept
    have mem := shape.children l lt e old.1
    by_cases le : l ≤ levelForKey key
    · exact (shrunk l le).bounds e mem (old.2 le)
    · rw [above l (Nat.lt_of_not_le le)]
      exact mem
  keys l lt k := by
    rw [(shrunk 0 (Nat.zero_le _)).keys (sorted 0 (by decide)) k]
    by_cases le : l ≤ levelForKey key
    · rw [(shrunk l le).keys (sorted l lt) k, shape.keys l lt k]
      exact and_right_comm
    · rw [above l (Nat.lt_of_not_le le), shape.keys l lt k]
      constructor
      · rintro ⟨mem, level⟩
        refine ⟨⟨mem, fun isKey => ?_⟩, level⟩
        rcases level with zero | level
        · exact Nat.ne_of_gt min (isKey ▸ zero)
        · exact le (isKey ▸ level)
      · rintro ⟨⟨mem, -⟩, level⟩
        exact ⟨mem, level⟩

/-! ### A value changes -/

/-- Other values of the same keys, in the same nodes. -/
theorem Shape.valued (shape : Shape list lv) (above : ∀ l, l ≠ 0 → lv' l = lv l)
    (keys : (flat (lv' 0)).map Prod.fst = (flat (lv 0)).map Prod.fst)
    (bounds : bounds (lv' 0) = bounds (lv 0)) : Shape list lv' := by
  have sameBounds (l : Nat) : Bskiplist.bounds (lv' l) = Bskiplist.bounds (lv l) := by
    rcases Nat.eq_zero_or_pos l with rfl | pos
    · exact bounds
    · rw [above l (Nat.ne_of_gt pos)]
  have sameKeys (l : Nat) : (flat (lv' l)).map Prod.fst = (flat (lv l)).map Prod.fst := by
    rcases Nat.eq_zero_or_pos l with rfl | pos
    · exact keys
    · rw [above l (Nat.ne_of_gt pos)]
  constructor
  · intro l lt
    rw [sameBounds]
    exact shape.head l lt
  · intro e he
    have mem : e.1 ∈ (flat (lv 0)).map Prod.fst := sameKeys 0 ▸ List.mem_map_of_mem he
    obtain ⟨f, hf, eq⟩ := List.mem_map.mp mem
    rw [← eq]
    exact shape.small f hf
  · intro l lt e he
    rw [sameBounds]
    rw [above _ (Nat.succ_ne_zero l)] at he
    exact shape.children l lt e he
  · intro l lt k
    rw [sameKeys, sameKeys]
    exact shape.keys l lt k

end DBx1000.Bskiplist
