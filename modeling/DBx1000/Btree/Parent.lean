import DBx1000.Btree.Split

/-!
# Inserting into the parents

`insert_into_parent` on the levels of the tree: a node that comes from a split waits to be put
behind the node that was split. The parent takes it in, or is split itself and leaves such a pair
to the level above.

## Main result

`insertIntoParent_spec`: if the place of the waiting node is neither the first one of a parent
with room nor the last one of a full parent, at every level that the split reaches, then the
levels above have the node at its place. Otherwise the call goes outside of an array.

## Proof strategy

By induction on the levels from the bottom to the top. A full parent hands the same task, with its
new neighbour, to the levels above it.
-/

namespace DBx1000.Btree

open Shift

variable {order : Nat} {s s' : IndexBtree}

/-! ### The condition -/

/-- The places that a waiting node gets in its parent, and those of the neighbours of full parents
further up, are ones that `insert_into_parent` can deal with. -/
def ParentFits (order : Nat) (s : IndexBtree) : Nat → Ptr → Key → Prop
  | 0, _, _ => False
  | rounds + 1, left, key =>
    let parent := (s.node left).parent
    let keys := s.keysOf parent
    parent = null ∨ keys.length < order - 1 ∧ 0 < place keys key ∨
      keys.length = order - 1 ∧ place keys key < order - 1 ∧
        ∀ kPrime ∈ (keys.insertIdx (place keys key) key)[cut order - 1]?,
          ParentFits order s rounds parent kPrime

instance decidableParentFits (order : Nat) (s : IndexBtree) :
    ∀ rounds left key, Decidable (ParentFits order s rounds left key)
  | 0, _, _ => isFalse id
  | rounds + 1, _, _ =>
    have := decidableParentFits order s rounds
    inferInstanceAs (Decidable (_ = null ∨ _ ∧ _ ∨ _ ∧ _ ∧ _))

/-! ### A node that waits -/

/-- The nodes of a level with one more behind `left`. -/
def withNew (front back : List (Nat × Ptr)) (lo : Nat) (left : Ptr) (key : Key) (right : Ptr) :
    List (Nat × Ptr) :=
  front ++ (lo, left) :: (sepRank key, right) :: back

theorem snd_withNew {l₁ l₂ : Level} {c : Cell} {key : Key} {a : Ptr} :
    (withNew (l₁.map Cell.bound) (l₂.map Cell.bound) c.low c.addr key a).map Prod.snd =
      l₁.map Cell.addr ++ c.addr :: a :: l₂.map Cell.addr := by
  simp only [withNew, List.map_append, List.map_cons, List.map_map]
  rfl

/-- A new address is different from all others. -/
theorem nodup_withNew {l₁ l₂ : Level} {c : Cell} {key : Key} {a : Ptr} {rest : List Ptr}
    (nodup : ((l₁ ++ c :: l₂).map Cell.addr ++ rest).Nodup)
    (below : ∀ b ∈ (l₁ ++ c :: l₂).map Cell.addr ++ rest, b < a) :
    ((withNew (l₁.map Cell.bound) (l₂.map Cell.bound) c.low c.addr key a).map Prod.snd ++
      rest).Nodup := by
  have front : l₁.map Cell.addr ++ c.addr :: a :: l₂.map Cell.addr ++ rest =
      (l₁.map Cell.addr ++ [c.addr]) ++ a :: (l₂.map Cell.addr ++ rest) := by
    simp
  rw [snd_withNew, front, List.perm_middle.nodup_iff, List.append_assoc, List.nodup_cons]
  rw [List.map_append, List.map_cons, List.append_assoc, List.cons_append] at nodup below
  exact ⟨fun mem => Nat.lt_irrefl _ (below a mem), nodup⟩

theorem known_withNew {l₁ l₂ : Level} {c : Cell} {key : Key} {a : Ptr} {rest : List Ptr}
    (known : ∀ b ∈ (l₁ ++ c :: l₂).map Cell.addr ++ rest, b ≠ null ∧ b < a) :
    ∀ b ∈ (withNew (l₁.map Cell.bound) (l₂.map Cell.bound) c.low c.addr key a).map Prod.snd ++ rest,
      b ≠ null ∧ b < a + 1 := by
  intro b hb
  have old : b = a ∨ b ∈ (l₁ ++ c :: l₂).map Cell.addr ++ rest := by
    rw [snd_withNew] at hb
    simp only [List.map_append, List.map_cons, List.mem_append, List.mem_cons] at hb ⊢
    tauto
  rcases old with rfl | old
  · have mine := (known c.addr (by simp)).2
    exact ⟨Nat.ne_of_gt (Nat.lt_of_le_of_lt (Nat.zero_le _) mine), Nat.lt_succ_self _⟩
  · exact ⟨(known b old).1, Nat.lt_succ_of_lt (known b old).2⟩

/-- The node `right` has been split off from `left` and waits to be put behind it. -/
structure Waiting (order : Nat) (s : IndexBtree) (front back : List (Nat × Ptr)) (lo : Nat)
    (left : Ptr) (key : Key) (right : Ptr) (up : List Level) : Prop where
  above : Above order s (front ++ (lo, left) :: back) up
  sorted : ((withNew front back lo left key right).map Prod.fst).Pairwise (· < ·)
  nodup : ((withNew front back lo left key right).map Prod.snd ++ addrs up).Nodup
  known : ∀ a ∈ (withNew front back lo left key right).map Prod.snd ++ addrs up,
    a ≠ null ∧ a < s.fresh
  parent : (s.node right).parent = (s.node left).parent
  next : (s.node left).next = right

/-- The levels above a level are as before, but for what the waiting node has made necessary. -/
structure Placed (order : Nat) (s s' : IndexBtree) (below : List (Nat × Ptr))
    (up up' : List Level) : Prop where
  above : Above order s' below up'
  items : s'.itemNext = s.itemNext
  fresh : s.fresh ≤ s'.fresh
  addrs : ∀ a ∈ addrs up', a ∈ addrs up ∨ s.fresh ≤ a ∧ a < s'.fresh
  nodup : (Btree.addrs up').Nodup
  kept : ∀ a ∈ below.map Prod.snd, Kept s s' a
  others : ∀ a < s.fresh, a ∉ below.map Prod.snd → a ∉ Btree.addrs up → s'.node a = s.node a

section Placed

variable {front back : List (Nat × Ptr)} {lo : Nat} {left right : Ptr} {key : Key}
  {up up' : List Level}

theorem Waiting.nodup_placed (h : Waiting order s front back lo left key right up)
    (placed : Placed order s s' (withNew front back lo left key right) up up') :
    ((withNew front back lo left key right).map Prod.snd ++ addrs up').Nodup := by
  obtain ⟨below, -, apart⟩ := List.nodup_append.mp h.nodup
  refine List.nodup_append.mpr ⟨below, placed.nodup, fun a ha b hb e => ?_⟩
  rcases placed.addrs b hb with old | ⟨new, -⟩
  · exact apart a ha b old e
  · exact absurd (h.known a (List.mem_append_left _ ha)).2 (Nat.not_lt_of_le (e ▸ new))

theorem Waiting.known_placed (h : Waiting order s front back lo left key right up)
    (placed : Placed order s s' (withNew front back lo left key right) up up') :
    ∀ a ∈ (withNew front back lo left key right).map Prod.snd ++ addrs up',
      a ≠ null ∧ a < s'.fresh := by
  have old (a : Ptr) (ha : a ∈ (withNew front back lo left key right).map Prod.snd ++ addrs up) :
      a ≠ null ∧ a < s'.fresh :=
    ⟨(h.known a ha).1, Nat.lt_of_lt_of_le (h.known a ha).2 placed.fresh⟩
  intro a ha
  rcases List.mem_append.mp ha with ha | ha
  · exact old a (List.mem_append_left _ ha)
  · rcases placed.addrs a ha with mem | ⟨new, lt⟩
    · exact old a (List.mem_append_right _ mem)
    · have first := (h.known left (by simp [withNew])).2
      exact ⟨Nat.ne_of_gt (Nat.lt_of_le_of_lt (Nat.zero_le _) (Nat.lt_of_lt_of_le first new)), lt⟩

end Placed

/-! ### The place of the waiting node -/

theorem place_append {front back : List Key} {key : Key} (small : ∀ k ∈ front, k < key)
    (large : ∀ k ∈ back, ¬ k < key) : place (front ++ back) key = front.length := by
  induction front with
  | nil =>
    cases back with
    | nil => rfl
    | cons k back =>
      unfold place
      rw [List.nil_append, List.findIdx_cons]
      simp [large k List.mem_cons_self]
  | cons k front ih =>
    have ih := ih fun x hx => small x (List.mem_cons_of_mem _ hx)
    unfold place at *
    rw [List.cons_append, List.findIdx_cons, ih]
    simp [small k List.mem_cons_self]

theorem sepRank_lt {a b : Nat} : sepRank a < sepRank b ↔ a < b := by
  unfold sepRank
  omega

/-- In the parent the place is behind the node that was split. -/
theorem Cell.place_eq {c : Cell} {u v : List (Nat × Ptr)} {lo : Nat} {left : Ptr} {key : Key}
    (arity : c.pointers.length = c.lows.length) (kids : c.kids = u ++ (lo, left) :: v)
    (before : ∀ e ∈ u ++ [(lo, left)], e.1 < sepRank key) (behind : ∀ e ∈ v, sepRank key < e.1) :
    place c.keys key = u.length := by
  have lows : c.low :: c.keys.map sepRank = (u ++ [(lo, left)]).map Prod.fst ++ v.map Prod.fst := by
    have := map_fst_kids arity
    rw [kids] at this
    simpa [Cell.lows] using this.symm
  have length : u.length ≤ c.keys.length := by
    have := congrArg List.length lows
    simp at this
    omega
  -- the bounds of the cell, cut at the child and at the key of that index
  have parts : (c.low :: (c.keys.take u.length).map sepRank) ++ (c.keys.drop u.length).map sepRank =
      (u ++ [(lo, left)]).map Prod.fst ++ v.map Prod.fst := by
    rw [List.cons_append, ← List.map_append, List.take_append_drop, lows]
  obtain ⟨front, back⟩ := List.append_inj parts (by simp [length])
  -- the keys in front bound the children up to `left`, the others the children behind it
  have small (k : Key) (hk : k ∈ c.keys.take u.length) : k < key := by
    have mem : sepRank k ∈ (u ++ [(lo, left)]).map Prod.fst :=
      front ▸ List.mem_cons_of_mem _ (List.mem_map_of_mem hk)
    obtain ⟨e, he, eq⟩ := List.mem_map.mp mem
    exact sepRank_lt.mp (eq ▸ before e he)
  have large (k : Key) (hk : k ∈ c.keys.drop u.length) : ¬ k < key := by
    have mem : sepRank k ∈ v.map Prod.fst := back ▸ List.mem_map_of_mem hk
    obtain ⟨e, he, eq⟩ := List.mem_map.mp mem
    exact Nat.lt_asymm (sepRank_lt.mp (eq ▸ behind e he))
  have split := place_append small large
  rw [List.take_append_drop, List.length_take, Nat.min_eq_left length] at split
  exact split

/-! ### A new root -/

theorem Waiting.newRoot (two : 2 ≤ order) {front back : List (Nat × Ptr)} {lo : Nat}
    {left right : Ptr} {key : Key} (h : Waiting order s front back lo left key right []) :
    (s.node left).parent = null ∧ ∃ s' up',
      s.insertIntoNewRoot order left key right = some s' ∧
        Placed order s s' (withNew front back lo left key right) [] up' := by
  obtain ⟨a, alone, none, top⟩ := h.above
  -- the level has one node
  obtain ⟨rfl, single, rfl⟩ : front = [] ∧ (lo, left) = (0, a) ∧ back = [] := by
    cases front with
    | nil => exact ⟨rfl, List.cons.inj alone⟩
    | cons e front => simp at alone
  obtain ⟨rfl, rfl⟩ := Prod.mk.inj single
  have nodup : left ≠ right := by simpa [withNew, addrs] using h.nodup
  obtain ⟨-, old⟩ := h.known left (by simp [withNew])
  obtain ⟨-, old'⟩ := h.known right (by simp [withNew])
  obtain ⟨s', run, root, fresh, items, -, -, others, apart⟩ :=
    insertIntoNewRoot_eq two s left right key
  obtain ⟨new, atLeft, atRight⟩ := apart nodup (Nat.ne_of_lt old) (Nat.ne_of_lt old')
  -- the new root has one key, between the two halves
  let cell : Cell := ⟨s.fresh, 0, [key], [left, right]⟩
  have holds : cell.Holds order s' false := by
    refine Cell.holds_of new rfl rfl ?_ ?_ rfl (show 1 ≤ order - 1 by omega)
    · simp [cell, cells, List.range_succ]
    · simp [cell, cells, List.range_succ]
  refine ⟨none, s', [[cell]], run, ⟨?_, items, fresh ▸ Nat.le_succ _, ?_, ?_, ?_, ?_⟩⟩
  · refine ⟨rfl, ?_, ?_, s.fresh, rfl, by rw [new], root⟩
    · intro c hc
      obtain rfl := List.mem_singleton.mp hc
      refine ⟨holds, List.cons_ne_nil _ _, fun p hp => ?_⟩
      have : p = left ∨ p = right := by simpa [cell] using hp
      rcases this with rfl | rfl
      · rw [atLeft]
      · rw [atRight]
    · refine ⟨?_, trivial⟩
      change (s'.node s.fresh).next = null
      rw [new]
  · intro b hb
    obtain rfl : b = s.fresh := by simpa [addrs, cell] using hb
    exact .inr ⟨Nat.le_refl _, fresh ▸ Nat.lt_succ_self _⟩
  · simp [addrs]
  · intro b hb
    have : b = left ∨ b = right := by simpa [withNew] using hb
    unfold Kept
    rcases this with rfl | rfl
    · rw [atLeft, ← h.next]
    · rw [atRight]
  · intro b lt out _
    -- the nodes that are not on the level have kept all fields
    refine others b (Nat.ne_of_lt lt) ?_ ?_
    · rintro rfl
      simp [withNew] at out
    · rintro rfl
      simp [withNew] at out

/-! ### The parent -/

/-- The node that waits has a parent: the cell between `l₁` and `l₂`, with the children `u` before
and `v` behind the node that was split. -/
structure HasParent (order : Nat) (s : IndexBtree) (front back : List (Nat × Ptr)) (lo : Nat)
    (left : Ptr) (key : Key) (level l₁ l₂ : Level) (c : Cell) (u v : List (Nat × Ptr)) :
    Prop where
  level : level = l₁ ++ c :: l₂
  kids : c.kids = u ++ (lo, left) :: v
  front : front = l₁.flatMap Cell.kids ++ u
  back : back = v ++ l₂.flatMap Cell.kids
  holds : c.Holds order s false
  keyed : c.keys ≠ []
  parent : (s.node left).parent = c.addr
  place : place c.keys key = u.length

theorem Waiting.hasParent {front back : List (Nat × Ptr)} {lo : Nat} {left right : Ptr} {key : Key}
    {level : Level} {up : List Level}
    (h : Waiting order s front back lo left key right (level :: up)) :
    ∃ l₁ l₂ c u v, HasParent order s front back lo left key level l₁ l₂ c u v := by
  obtain ⟨split, holds, -, -⟩ := h.above
  obtain ⟨l₁, c, l₂, u, v, rfl, kids, rfl, rfl⟩ := exists_part split
  obtain ⟨cell, keyed, children⟩ := holds c (by simp)
  have child : left ∈ c.pointers := by
    rw [Cell.mem_kids_snd cell.length_pointers, kids]
    exact ⟨lo, by simp⟩
  -- the new entry lies between the children before and behind it
  have sorted := h.sorted
  rw [withNew, List.map_append, List.map_cons, List.map_cons, List.pairwise_append] at sorted
  obtain ⟨-, rest, before⟩ := sorted
  obtain ⟨first, rest⟩ := List.pairwise_cons.mp rest
  obtain ⟨behind, -⟩ := List.pairwise_cons.mp rest
  refine ⟨l₁, l₂, c, u, v, rfl, kids, rfl, rfl, cell, keyed, children left child, ?_⟩
  refine Cell.place_eq cell.length_pointers kids (fun e he => ?_) (fun e he => ?_)
  · rcases List.mem_append.mp he with he | he
    · exact before e.1 (List.mem_map_of_mem (List.mem_append_right _ he)) _ (by simp)
    · obtain rfl := List.mem_singleton.mp he
      exact first _ (by simp)
  · exact behind e.1 (List.mem_map_of_mem (List.mem_append_left _ he))

section Step

variable {front back : List (Nat × Ptr)} {lo : Nat} {left right : Ptr} {key : Key}
  {level l₁ l₂ : Level} {c : Cell} {u v : List (Nat × Ptr)} {up : List Level}

/-- The search for the index ends at the place of the key. -/
theorem Cell.Holds.insertIdx_eq (h : c.Holds order s false) (key : Key) :
    insertIdx order (s.node c.addr) key (s.node c.addr).numKeys 0 =
      if place c.keys key < order - 1 then some (place c.keys key) else none := by
  have few := h.few
  rw [Btree.insertIdx_eq (by rw [h.numKeys]; omega), keysFrom_zero, h.numKeys, h.keys]
  simp only [Nat.zero_add]
  rfl

theorem HasParent.length_le (p : HasParent order s front back lo left key level l₁ l₂ c u v) :
    u.length ≤ c.keys.length :=
  p.place ▸ place_le ..

/-- The level below is that of the children, with the new one inserted. -/
theorem HasParent.withNew_eq (p : HasParent order s front back lo left key level l₁ l₂ c u v)
    (right : Ptr) : withNew front back lo left key right =
      l₁.flatMap Cell.kids ++ (c.insert u.length key right).kids ++ l₂.flatMap Cell.kids := by
  rw [Cell.kids_insert p.holds.length_pointers p.kids, p.front, p.back, withNew]
  simp

theorem HasParent.arity (p : HasParent order s front back lo left key level l₁ l₂ c u v)
    (right : Ptr) : (c.insert u.length key right).pointers.length =
      (c.insert u.length key right).lows.length :=
  Cell.insert_arity p.holds.length_pointers p.length_le key right

/-- The nodes of the level below, as the children of this one. -/
theorem HasParent.pointers_eq (p : HasParent order s front back lo left key level l₁ l₂ c u v)
    (holds : ∀ d ∈ level, d.Holds order s false) (right : Ptr) :
    (withNew front back lo left key right).map Prod.snd = l₁.flatMap Cell.pointers ++
      (c.insert u.length key right).pointers ++ l₂.flatMap Cell.pointers := by
  rw [p.withNew_eq right, List.map_append, List.map_append, List.map_flatMap, List.map_flatMap,
    Cell.map_snd_kids (p.arity right)]
  congr 1
  · congr 1
    refine List.flatMap_congr fun d hd => Cell.map_snd_kids ?_
    exact (holds d (by rw [p.level]; simp [hd])).length_pointers
  · refine List.flatMap_congr fun d hd => Cell.map_snd_kids ?_
    exact (holds d (by rw [p.level]; simp [hd])).length_pointers

/-- A parent with room has the new node in its arrays after the call. -/
theorem HasParent.insertIntoParent_room (limit : order ≤ 2 ^ 32)
    (p : HasParent order s front back lo left key level l₁ l₂ c u v) (child : c.addr ≠ null)
    (right : Ptr) (rounds : Nat) (few : c.keys.length < order - 1) (pos : 0 < u.length) :
    ∃ n, IndexBtree.insertIntoParent order (rounds + 1) s left key right =
        some (s.setNode c.addr n) ∧
      (c.insert u.length key right).Holds order (s.setNode c.addr n) false ∧
      n.parent = (s.node c.addr).parent ∧ n.next = (s.node c.addr).next := by
  have numKeys := p.holds.numKeys
  have le := p.length_le
  obtain ⟨m, more⟩ : ∃ m, c.keys.length = m + 1 := ⟨c.keys.length - 1, by omega⟩
  unfold IndexBtree.insertIntoParent
  rw [p.parent, if_neg child]
  simp only [p.holds.insertIdx_eq, p.place, Option.bind_eq_bind]
  rw [if_pos (by omega)]
  simp only [Option.bind_some, numKeys]
  -- the node has room: the cells behind the index are moved up by one
  rw [if_pos few, more, pred32_succ (by omega),
    makeRoom_eq limit pos (by omega) (by omega) (Nat.lt_succ_self m)]
  simp only [Option.bind_some]
  rw [storeKey_of_lt _ (by omega)]
  simp only [Option.bind_some]
  rw [storePointer_of_lt _ (by omega)]
  refine ⟨_, rfl, ?_, rfl, rfl⟩
  have arity : c.pointers.length = m + 2 := by
    rw [show c.pointers.length = c.keys.length + 1 from p.holds.arity, more]
  have lengthKeys : (c.insert u.length key right).keys.length = m + 2 := by
    change (c.keys.insertIdx _ _).length = _
    rw [List.length_insertIdx_of_le_length le, more]
  have lengthPointers : (c.insert u.length key right).pointers.length = m + 3 := by
    change (c.pointers.insertIdx _ _).length = _
    rw [List.length_insertIdx_of_le_length (by omega), arity]
  refine Cell.holds_of (Function.update_self ..) p.holds.isLeaf ?_ ?_ ?_ ?_ (by omega)
  · change (s.node c.addr).numKeys + 1 = _
    rw [numKeys, more, lengthKeys]
  · have array : cells (s.node c.addr).keys (m + 1) = c.keys := more ▸ p.holds.keys
    have keys := cells_insert (s.node c.addr).keys (by omega : u.length ≤ m + 1) key
    rw [array] at keys
    change cells _ ((s.node c.addr).numKeys + 1) = _
    rw [numKeys, more]
    exact keys
  · rw [lengthPointers]
    have array : cells (s.node c.addr).pointers (m + 2) = c.pointers := arity ▸ p.holds.pointers
    have pointers := cells_insert (s.node c.addr).pointers (by omega : u.length + 1 ≤ m + 2) right
    rw [array] at pointers
    exact pointers
  · rw [lengthKeys, lengthPointers]
    rfl

/-- Nodes of a level and of the levels above are different. -/
theorem Waiting.ne (h : Waiting order s front back lo left key right up) {x a : Ptr}
    (hx : x ∈ (withNew front back lo left key right).map Prod.snd) (ha : a ∈ addrs up) : x ≠ a :=
  (List.nodup_append.mp h.nodup).2.2 x hx a ha

theorem addrs_cons (level : Level) (up : List Level) :
    addrs (level :: up) = level.map Cell.addr ++ addrs up := by
  simp [addrs]

/-- The children of the cells beside the parent, and of the parent with the new one. -/
theorem HasParent.mem_withNew (p : HasParent order s front back lo left key level l₁ l₂ c u v)
    (holds : ∀ d ∈ level, d.Holds order s false) {d : Cell}
    (hd : d ∈ l₁ ++ c.insert u.length key right :: l₂) {x : Ptr} (hx : x ∈ d.pointers) :
    x ∈ (withNew front back lo left key right).map Prod.snd := by
  rw [p.pointers_eq holds right]
  have all : x ∈ (l₁ ++ c.insert u.length key right :: l₂).flatMap Cell.pointers :=
    List.mem_flatMap.mpr ⟨d, hd, hx⟩
  simpa using all

/-- The parent is at one place of the levels only. -/
theorem HasParent.unique (p : HasParent order s front back lo left key level l₁ l₂ c u v)
    (nodup : (addrs (level :: up)).Nodup) :
    (∀ d ∈ l₁ ++ l₂, d.addr ≠ c.addr) ∧ ∀ a ∈ addrs up, a ≠ c.addr := by
  rw [addrs_cons, p.level, List.map_append, List.map_cons, List.append_assoc, List.cons_append,
    List.perm_middle.nodup_iff, List.nodup_cons] at nodup
  obtain ⟨out, -⟩ := nodup
  refine ⟨fun d hd e => out ?_, fun a ha e => out ?_⟩
  · rw [← e]
    rcases List.mem_append.mp hd with mem | mem
    · exact List.mem_append_left _ (List.mem_map_of_mem mem)
    · exact List.mem_append_right _ (List.mem_append_left _ (List.mem_map_of_mem mem))
  · rw [← e]
    exact List.mem_append_right _ (List.mem_append_right _ ha)

/-- A parent with room takes the new node in. -/
theorem Waiting.room (limit : order ≤ 2 ^ 32)
    (h : Waiting order s front back lo left key right (level :: up))
    (p : HasParent order s front back lo left key level l₁ l₂ c u v) (rounds : Nat)
    (few : c.keys.length < order - 1) (pos : 0 < u.length) :
    ∃ s', IndexBtree.insertIntoParent order (rounds + 1) s left key right = some s' ∧
      Placed order s s' (withNew front back lo left key right) (level :: up)
        ((l₁ ++ c.insert u.length key right :: l₂) :: up) := by
  obtain ⟨-, holdsAll, linked, above⟩ := h.above
  have nodup : (addrs (level :: up)).Nodup := (List.nodup_append.mp h.nodup).2.1
  obtain ⟨unique, uniqueUp⟩ := p.unique nodup
  have mine : c.addr ∈ addrs (level :: up) := by
    rw [addrs_cons, p.level]
    simp
  obtain ⟨n, run, holds, parent, next⟩ :=
    p.insertIntoParent_room limit (h.known _ (List.mem_append_right _ mine)).1 right rounds few pos
  -- only the parent changes, and neither in its parent nor in its neighbour
  have others (x : Ptr) (ne : x ≠ c.addr) : (s.setNode c.addr n).node x = s.node x :=
    Function.update_of_ne ne ..
  have self : (s.setNode c.addr n).node c.addr = n := Function.update_self ..
  have child (x : Ptr) (hx : x ∈ (withNew front back lo left key right).map Prod.snd) :
      (s.setNode c.addr n).node x = s.node x := others x (h.ne hx mine)
  have addrs_eq : addrs ((l₁ ++ c.insert u.length key right :: l₂) :: up) = addrs (level :: up) := by
    rw [addrs_cons, addrs_cons, p.level]
    simp [Cell.insert]
  refine ⟨_, run, ⟨⟨?_, ?_, ?_, ?_⟩, rfl, Nat.le_refl _, ?_, ?_, ?_, ?_⟩⟩
  · -- the children, with the new one
    rw [p.withNew_eq right]
    simp
  · -- the cell that is inserted into, and those beside it
    intro d hd
    have children (x : Ptr) (hx : x ∈ d.pointers) : (s.setNode c.addr n).node x = s.node x :=
      child x (p.mem_withNew (fun d hd => (holdsAll d hd).1) hd hx)
    by_cases here : d = c.insert u.length key right
    · subst here
      refine ⟨holds, ?_, fun x hx => ?_⟩
      · intro none
        have length := congrArg List.length none
        rw [show (c.insert u.length key right).keys = c.keys.insertIdx u.length key from rfl,
          List.length_insertIdx_of_le_length p.length_le] at length
        exact Nat.succ_ne_zero _ length
      · rw [children x hx]
        rcases List.eq_or_mem_of_mem_insertIdx hx with rfl | old
        · exact h.parent.trans p.parent
        · exact (holdsAll c (by rw [p.level]; simp)).2.2 x old
    · have beside : d ∈ l₁ ++ l₂ := by
        simp only [List.mem_append, List.mem_cons, here, false_or] at hd ⊢
        exact hd
      obtain ⟨cell, keyed, parents⟩ := holdsAll d (by
        rw [p.level]
        simp only [List.mem_append, List.mem_cons] at beside ⊢
        tauto)
      refine ⟨cell.kept (.of_eq (others _ (unique d beside))), keyed, fun x hx => ?_⟩
      rw [children x hx]
      exact parents x hx
  · -- the chain of the level
    have same : (l₁ ++ c.insert u.length key right :: l₂).map Cell.addr = level.map Cell.addr := by
      rw [p.level]
      simp [Cell.insert]
    rw [same]
    -- no link of it has changed
    refine linked.congr fun a _ => ?_
    by_cases e : a = c.addr
    · rw [e, self, next]
    · rw [others a e]
  · -- the levels above are as they were
    have same : (l₁ ++ c.insert u.length key right :: l₂).map Cell.bound = level.map Cell.bound := by
      rw [p.level]
      simp [Cell.insert, Cell.bound]
    rw [same]
    refine above.frame rfl (fun a ha => others a (uniqueUp a ha)) fun e _ => ?_
    by_cases here : e.2 = c.addr
    · rw [here, self, parent]
    · rw [others _ here]
  · -- no address is new
    intro a ha
    exact .inl (addrs_eq ▸ ha)
  · exact addrs_eq ▸ nodup
  · exact fun a ha => .of_eq (child a ha)
  · intro a _ _ out
    refine others a fun e => out ?_
    rw [e]
    exact mine

/-! ### A full parent -/

theorem Cell.map_low_sublist (l : Level) : (l.map Cell.low).Sublist (l.flatMap Cell.lows) := by
  induction l with
  | nil => exact .refl _
  | cons c l ih =>
    rw [List.map_cons, List.flatMap_cons, Cell.lows, List.cons_append]
    exact (ih.trans (List.sublist_append_right ..)).cons_cons _

/-- The heap after the split of the parent, as the levels below and above see it. -/
theorem HasParent.others (h : Waiting order s front back lo left key right (level :: up))
    (p : HasParent order s front back lo left key level l₁ l₂ c u v) {s₁ : IndexBtree}
    {kPrime : Key} (split : SplitNl order s s₁ (c.insert u.length key right) kPrime) {a : Ptr}
    (mem : a ∈ addrs (level :: up)) (ne : a ≠ c.addr) : s₁.node a = s.node a := by
  obtain ⟨-, holdsAll, -, -⟩ := h.above
  have old : a < s.fresh := (h.known a (List.mem_append_right _ mem)).2
  rw [split.others a ne (Nat.ne_of_lt old), if_neg]
  intro child
  have below : a ∈ (withNew front back lo left key right).map Prod.snd :=
    p.mem_withNew (fun d hd => (holdsAll d hd).1)
      (List.mem_append_right _ List.mem_cons_self) (List.mem_of_mem_drop child)
  exact h.ne below mem rfl

/-- The levels above have the nodes that they had, and the parents of this level are the same. -/
theorem HasParent.unseen (h : Waiting order s front back lo left key right (level :: up))
    (p : HasParent order s front back lo left key level l₁ l₂ c u v) {s₁ : IndexBtree}
    {kPrime : Key} (split : SplitNl order s s₁ (c.insert u.length key right) kPrime) :
    (∀ a ∈ addrs up, s₁.node a = s.node a) ∧
      ∀ e ∈ level.map Cell.bound, (s₁.node e.2).parent = (s.node e.2).parent := by
  obtain ⟨-, uniqueUp⟩ := p.unique (List.nodup_append.mp h.nodup).2.1
  refine ⟨fun a ha => ?_, fun e he => ?_⟩
  · exact p.others h split (addrs_cons level up ▸ List.mem_append_right _ ha) (uniqueUp a ha)
  · obtain ⟨d, hd, rfl⟩ := List.mem_map.mp he
    by_cases here : d.bound.2 = c.addr
    · rw [here]
      exact split.parent
    · rw [p.others h split (addrs_cons level up ▸ List.mem_append_left _ (List.mem_map_of_mem hd))
        here]

/-- The split of the parent leaves its new neighbour waiting at the level above. -/
theorem Waiting.passUp (h : Waiting order s front back lo left key right (level :: up))
    (p : HasParent order s front back lo left key level l₁ l₂ c u v) {s₁ : IndexBtree}
    {kPrime : Key} (split : SplitNl order s s₁ (c.insert u.length key right) kPrime) :
    Waiting order s₁ (l₁.map Cell.bound) (l₂.map Cell.bound) c.low c.addr kPrime s.fresh up := by
  obtain ⟨-, holdsAll, -, above⟩ := h.above
  have nodup : (addrs (level :: up)).Nodup := (List.nodup_append.mp h.nodup).2.1
  have known (a : Ptr) (ha : a ∈ addrs (level :: up)) : a ≠ null ∧ a < s.fresh :=
    h.known a (List.mem_append_right _ ha)
  have bounds : level.map Cell.bound = l₁.map Cell.bound ++ (c.low, c.addr) :: l₂.map Cell.bound := by
    rw [p.level]
    simp [Cell.bound]
  rw [addrs_cons, p.level] at nodup known
  refine ⟨?_, ?_, ?_, ?_, split.parentRight.trans split.parent.symm, split.next⟩
  · rw [← bounds]
    -- the split is not seen on the levels above
    obtain ⟨nodes, parents⟩ := p.unseen h split
    exact above.frame split.root nodes parents
  · -- the bounds of a level are among those of the children
    have promoted : kPrime ∈ (c.insert u.length key right).keys := List.mem_of_getElem? split.middle
    -- the promoted key lies behind the lower bound of the cell
    have pair : [c.low, sepRank kPrime].Sublist (c.insert u.length key right).lows :=
      (List.singleton_sublist.mpr (List.mem_map_of_mem promoted)).cons_cons _
    have lows : (withNew front back lo left key right).map Prod.fst = l₁.flatMap Cell.lows ++
        (c.insert u.length key right).lows ++ l₂.flatMap Cell.lows := by
      rw [p.withNew_eq right, List.map_append, List.map_append, List.map_flatMap, List.map_flatMap,
        Cell.map_fst_kids (p.arity right)]
      congr 1
      · congr 1
        refine List.flatMap_congr fun d hd => Cell.map_fst_kids ?_
        exact (holdsAll d (by rw [p.level]; simp [hd])).1.length_pointers
      · refine List.flatMap_congr fun d hd => Cell.map_fst_kids ?_
        exact (holdsAll d (by rw [p.level]; simp [hd])).1.length_pointers
    have fst : (withNew (l₁.map Cell.bound) (l₂.map Cell.bound) c.low c.addr kPrime s.fresh).map
        Prod.fst = l₁.map Cell.low ++ [c.low, sepRank kPrime] ++ l₂.map Cell.low := by
      simp only [withNew, List.map_append, List.map_cons, List.map_map, List.append_assoc,
        List.cons_append, List.nil_append]
      rfl
    rw [fst]
    exact (lows ▸ h.sorted).sublist
      (((Cell.map_low_sublist l₁).append pair).append (Cell.map_low_sublist l₂))
  · exact nodup_withNew nodup fun a ha => (known a ha).2
  · exact split.fresh ▸ known_withNew known

section PassDown

variable {s₁ : IndexBtree} {kPrime : Key} {up' : List Level}

theorem mem_addrs_split (p : HasParent order s front back lo left key level l₁ l₂ c u v) {a : Ptr} :
    a ∈ addrs (level :: up) ↔
      (a ∈ l₁.map Cell.addr ∨ a = c.addr ∨ a ∈ l₂.map Cell.addr) ∨ a ∈ addrs up := by
  rw [addrs_cons, p.level, List.map_append, List.map_cons, List.mem_append, List.mem_append,
    List.mem_cons]

theorem mem_snd_withNew {a : Ptr} : a ∈ (withNew (l₁.map Cell.bound) (l₂.map Cell.bound) c.low c.addr
    kPrime s.fresh).map Prod.snd ↔
      a ∈ l₁.map Cell.addr ∨ a = c.addr ∨ a = s.fresh ∨ a ∈ l₂.map Cell.addr := by
  rw [snd_withNew, List.mem_append, List.mem_cons, List.mem_cons]

variable (h : Waiting order s front back lo left key right (level :: up))
  (p : HasParent order s front back lo left key level l₁ l₂ c u v)
  (split : SplitNl order s s₁ (c.insert u.length key right) kPrime)
  (placed : Placed order s₁ s' (withNew (l₁.map Cell.bound) (l₂.map Cell.bound) c.low c.addr
    kPrime s.fresh) up up')

include h p split placed

/-- A child keeps its place, and its parent is the one of the two parts that has it. -/
theorem Waiting.child {x : Ptr} (hx : x ∈ (withNew front back lo left key right).map Prod.snd) :
    s'.node x = if x ∈ (c.insert u.length key right).pointers.drop (cut order) then
      { s.node x with parent := s.fresh } else s.node x := by
  have old := (h.known x (List.mem_append_left _ hx)).2
  have fresh : s.fresh ≤ s₁.fresh := split.fresh ▸ Nat.le_succ _
  have apart {a : Ptr} (ha : a ∈ addrs (level :: up)) : x ≠ a := h.ne hx ha
  rw [placed.others x (Nat.lt_of_lt_of_le old fresh) (fun mem => ?_) fun mem => ?_]
  · refine split.others x (apart ?_) (Nat.ne_of_lt old)
    exact (mem_addrs_split p).mpr (.inl (.inr (.inl rfl)))
  · rcases mem_snd_withNew.mp mem with mem | mem | mem | mem
    · exact apart ((mem_addrs_split p).mpr (.inl (.inl mem))) rfl
    · exact apart ((mem_addrs_split p).mpr (.inl (.inr (.inl mem)))) rfl
    · exact Nat.ne_of_lt old mem
    · exact apart ((mem_addrs_split p).mpr (.inl (.inr (.inr mem)))) rfl
  · exact apart ((mem_addrs_split p).mpr (.inr mem)) rfl

/-- A cell beside the parent is as before. -/
theorem Waiting.beside {d : Cell} (hd : d ∈ l₁ ++ l₂) : d.Holds order s' false ∧ d.keys ≠ [] ∧
    ∀ x ∈ d.pointers, (s'.node x).parent = d.addr := by
  obtain ⟨-, holdsAll, -, -⟩ := h.above
  have mem : d ∈ level := by
    rw [p.level]
    simp only [List.mem_append, List.mem_cons] at hd ⊢
    tauto
  have hd' : d ∈ l₁ ++ c.insert u.length key right :: l₂ := by
    simp only [List.mem_append, List.mem_cons] at hd ⊢
    tauto
  obtain ⟨cell, keyed, parents⟩ := holdsAll d mem
  have same := p.others h split (addrs_cons level up ▸ List.mem_append_left _
    (List.mem_map_of_mem mem)) ((p.unique (List.nodup_append.mp h.nodup).2.1).1 d hd)
  refine ⟨cell.kept ((Kept.of_eq same).trans (placed.kept _ (mem_snd_withNew.mpr ?_))), keyed,
    fun x hx => ?_⟩
  · rcases List.mem_append.mp hd with hd | hd
    · exact .inl (List.mem_map_of_mem hd)
    · exact .inr (.inr (.inr (List.mem_map_of_mem hd)))
  · rw [h.child p split placed (p.mem_withNew (fun d hd => (holdsAll d hd).1) hd' hx), if_neg,
      parents x hx]
    -- the children of the cells are different, so the split has moved none of these
    have nodup := (List.nodup_append.mp h.nodup).1
    rw [p.pointers_eq (fun d hd => (holdsAll d hd).1) right] at nodup
    obtain ⟨nodupFront, -, apartBack⟩ := List.nodup_append.mp nodup
    obtain ⟨-, -, apartFront⟩ := List.nodup_append.mp nodupFront
    intro moved
    have moved := List.mem_of_mem_drop moved
    rcases List.mem_append.mp hd with hd | hd
    · exact apartFront x (List.mem_flatMap.mpr ⟨d, hd, hx⟩) x moved rfl
    · exact apartBack x (List.mem_append_right _ moved) x (List.mem_flatMap.mpr ⟨d, hd, hx⟩) rfl

/-- The first part of the parent has the first children. -/
theorem Waiting.leftPart (three : 3 ≤ order)
    (length : (c.insert u.length key right).keys.length = order) :
    let d := (c.insert u.length key right).leftPart (cut order)
    d.Holds order s' false ∧ d.keys ≠ [] ∧ ∀ x ∈ d.pointers, (s'.node x).parent = d.addr := by
  obtain ⟨-, holdsAll, -, -⟩ := h.above
  refine ⟨split.left.kept (placed.kept c.addr (mem_snd_withNew.mpr (.inr (.inl rfl)))),
    fun none => ?_, fun x hx => ?_⟩
  · have zero := congrArg List.length none
    rw [show ((c.insert u.length key right).leftPart (cut order)).keys =
      (c.insert u.length key right).keys.take (cut order - 1) from rfl, List.length_take,
      length, List.length_nil] at zero
    have two : 2 ≤ cut order := by
      unfold cut
      split <;> omega
    omega
  · have hx : x ∈ (c.insert u.length key right).pointers.take (cut order) := hx
    have nodup := (List.nodup_append.mp h.nodup).1
    rw [p.pointers_eq (fun d hd => (holdsAll d hd).1) right] at nodup
    have nodupMine := (List.nodup_append.mp (List.nodup_append.mp nodup).1).2.1
    rw [← List.take_append_drop (cut order) (c.insert u.length key right).pointers] at nodupMine
    rw [h.child p split placed (p.mem_withNew (fun d hd => (holdsAll d hd).1)
        (List.mem_append_right _ List.mem_cons_self) (List.mem_of_mem_take hx)),
      if_neg fun moved => (List.nodup_append.mp nodupMine).2.2 x hx x moved rfl]
    rcases List.eq_or_mem_of_mem_insertIdx (List.mem_of_mem_take hx) with rfl | old
    · exact h.parent.trans p.parent
    · exact (holdsAll c (by rw [p.level]; simp)).2.2 x old

/-- The second part, a new node, has adopted the others. -/
theorem Waiting.rightPart (three : 3 ≤ order)
    (length : (c.insert u.length key right).keys.length = order) :
    let d := (c.insert u.length key right).rightPart (cut order) kPrime s.fresh
    d.Holds order s' false ∧ d.keys ≠ [] ∧ ∀ x ∈ d.pointers, (s'.node x).parent = d.addr := by
  obtain ⟨-, holdsAll, -, -⟩ := h.above
  obtain ⟨-, cutLt⟩ := cut_bounds (show 2 ≤ order by omega)
  refine ⟨split.right.kept (placed.kept s.fresh (mem_snd_withNew.mpr (.inr (.inr (.inl rfl))))),
    fun none => ?_, fun x hx => ?_⟩
  · have zero := congrArg List.length none
    rw [show ((c.insert u.length key right).rightPart (cut order) kPrime s.fresh).keys =
      (c.insert u.length key right).keys.drop (cut order) from rfl, List.length_drop,
      length, List.length_nil] at zero
    omega
  · have hx : x ∈ (c.insert u.length key right).pointers.drop (cut order) := hx
    rw [h.child p split placed (p.mem_withNew (fun d hd => (holdsAll d hd).1)
      (List.mem_append_right _ List.mem_cons_self) (List.mem_of_mem_drop hx)), if_pos hx]
    rfl

/-- The nodes of the level are linked, with the new one behind the parent. -/
theorem Waiting.linked_parts : Linked (fun a => (s'.node a).next)
    ((l₁ ++ (c.insert u.length key right).leftPart (cut order) ::
      (c.insert u.length key right).rightPart (cut order) kPrime s.fresh :: l₂).map Cell.addr) := by
  obtain ⟨-, -, linked, -⟩ := h.above
  have waiting := h.passUp p split
  have kept {a : Ptr} (ha : a ∈ l₁.map Cell.addr ∨ a = c.addr ∨ a = s.fresh ∨ a ∈ l₂.map Cell.addr) :
      Kept s₁ s' a := placed.kept a (mem_snd_withNew.mpr ha)
  rw [List.map_append, List.map_cons, List.map_cons]
  rw [p.level, List.map_append, List.map_cons] at linked
  refine linked.split (snd_withNew ▸ (List.nodup_append.mp waiting.nodup).1) ?_ ?_ fun x hx => ?_
  · exact (kept (.inr (.inl rfl))).next.trans split.next
  · exact (kept (.inr (.inr (.inl rfl)))).next.trans split.nextRight
  · have place := List.mem_append.mp hx
    rw [← List.map_append] at hx
    obtain ⟨d, hd, rfl⟩ := List.mem_map.mp hx
    have mem : d.addr ∈ addrs (level :: up) :=
      (mem_addrs_split p).mpr (.inl (place.imp_right .inr))
    rw [(kept (place.imp_right fun at_ => .inr (.inr at_))).next,
      p.others h split mem ((p.unique (List.nodup_append.mp h.nodup).2.1).1 d hd)]

/-- What the levels above make of the new neighbour of the parent is right for this level too. -/
theorem Waiting.passDown (three : 3 ≤ order) (full : c.keys.length = order - 1) :
    Placed order s s' (withNew front back lo left key right) (level :: up)
      ((l₁ ++ (c.insert u.length key right).leftPart (cut order) ::
        (c.insert u.length key right).rightPart (cut order) kPrime s.fresh :: l₂) :: up') := by
  obtain ⟨-, holdsAll, -, -⟩ := h.above
  have fresh : s.fresh ≤ s₁.fresh := split.fresh ▸ Nat.le_succ _
  have length : (c.insert u.length key right).keys.length = order := by
    change (c.keys.insertIdx _ _).length = _
    rw [List.length_insertIdx_of_le_length p.length_le, full]
    omega
  refine ⟨⟨?_, ?_, h.linked_parts p split placed, ?_⟩, placed.items.trans split.items,
    Nat.le_trans fresh placed.fresh, ?_, ?_, ?_, ?_⟩
  · -- the children of the two halves are those of the cell with the new one
    obtain ⟨cutPos, -⟩ := cut_bounds (show 2 ≤ order by omega)
    rw [p.withNew_eq right, List.flatMap_append, List.flatMap_cons, List.flatMap_cons,
      Cell.kids_leftPart cutPos, Cell.kids_rightPart cutPos split.middle, List.append_assoc,
      ← List.append_assoc (List.take _ _), List.take_append_drop]
  · -- a half of the split node, or a cell beside it
    intro d hd
    rcases List.mem_append.mp hd with hd | hd
    · exact h.beside p split placed (List.mem_append_left _ hd)
    rcases List.mem_cons.mp hd with rfl | hd
    · exact h.leftPart p split placed three length
    rcases List.mem_cons.mp hd with rfl | hd
    · exact h.rightPart p split placed three length
    · exact h.beside p split placed (List.mem_append_right _ hd)
  · rw [List.map_append, List.map_cons, List.map_cons]
    exact placed.above
  · -- the only new address of this level is that of the new node
    intro a ha
    rw [addrs_cons] at ha
    rcases List.mem_append.mp ha with ha | ha
    · by_cases e : a = s.fresh
      · refine .inr ⟨Nat.le_of_eq e.symm, ?_⟩
        exact Nat.lt_of_lt_of_le (by rw [e, split.fresh]; exact Nat.lt_succ_self _) placed.fresh
      · refine .inl ((mem_addrs_split p).mpr (.inl ?_))
        simp only [List.map_append, List.map_cons, List.mem_append, List.mem_cons] at ha
        change a ∈ l₁.map Cell.addr ∨ a = c.addr ∨ a = s.fresh ∨ a ∈ l₂.map Cell.addr at ha
        tauto
    · -- or it has come above
      rcases placed.addrs a ha with old | ⟨new, lt⟩
      · exact .inl (addrs_cons level up ▸ List.mem_append_right _ old)
      · exact .inr ⟨Nat.le_trans fresh new, lt⟩
  · rw [addrs_cons, List.map_append, List.map_cons, List.map_cons]
    have waiting := (h.passUp p split).nodup_placed placed
    rw [snd_withNew] at waiting
    exact waiting
  · intro a ha
    unfold Kept
    rw [h.child p split placed ha]
    split <;> rfl
  · -- a node of the heap that is neither on this level nor above
    intro a lt out out'
    have outUp : a ∉ addrs up := fun mem => out' ((mem_addrs_split p).mpr (.inr mem))
    have other : a ≠ c.addr := fun e => out' ((mem_addrs_split p).mpr (.inl (.inr (.inl e))))
    rw [placed.others a (Nat.lt_of_lt_of_le lt fresh) (fun mem => ?_) outUp,
      split.others a other (Nat.ne_of_lt lt), if_neg]
    · exact fun moved => out (p.mem_withNew (fun d hd => (holdsAll d hd).1)
        (List.mem_append_right _ List.mem_cons_self) (List.mem_of_mem_drop moved))
    · rcases mem_snd_withNew.mp mem with mem | mem | mem | mem
      · exact out' ((mem_addrs_split p).mpr (.inl (.inl mem)))
      · exact other mem
      · exact Nat.ne_of_lt lt mem
      · exact out' ((mem_addrs_split p).mpr (.inl (.inr (.inr mem))))

end PassDown

end Step

/-! ### All levels -/

section Calls

variable {front back : List (Nat × Ptr)} {lo : Nat} {left right : Ptr} {key : Key}
  {level l₁ l₂ : Level} {c : Cell} {u v : List (Nat × Ptr)} {rounds : Nat}

/-- In front of all keys of a parent with room the loop runs behind the start of the arrays. -/
theorem HasParent.insertIntoParent_front (limit : order ≤ 2 ^ 32)
    (p : HasParent order s front back lo left key level l₁ l₂ c u v) (child : c.addr ≠ null)
    (few : c.keys.length < order - 1) (zero : u.length = 0) :
    IndexBtree.insertIntoParent order (rounds + 1) s left key right = none := by
  have numKeys := p.holds.numKeys
  obtain ⟨m, more⟩ : ∃ m, c.keys.length = m + 1 := by
    have := List.length_pos_of_ne_nil p.keyed
    exact ⟨c.keys.length - 1, by omega⟩
  unfold IndexBtree.insertIntoParent
  rw [p.parent, if_neg child]
  simp only [p.holds.insertIdx_eq, p.place, zero, Option.bind_eq_bind]
  rw [if_pos (by omega)]
  simp only [Option.bind_some, numKeys]
  rw [if_pos few, more, pred32_succ (by omega), makeRoom_zero limit (by omega)]
  rfl

/-- Behind all keys of a full parent the search for the index reads a key too many. -/
theorem HasParent.insertIntoParent_behind
    (p : HasParent order s front back lo left key level l₁ l₂ c u v) (child : c.addr ≠ null)
    (all : ¬ u.length < order - 1) :
    IndexBtree.insertIntoParent order (rounds + 1) s left key right = none := by
  unfold IndexBtree.insertIntoParent
  rw [p.parent, if_neg child]
  simp only [p.holds.insertIdx_eq, p.place, Option.bind_eq_bind]
  rw [if_neg all]
  rfl

/-- A full parent is split, and the call goes on at the level above. -/
theorem HasParent.insertIntoParent_full
    (p : HasParent order s front back lo left key level l₁ l₂ c u v) (child : c.addr ≠ null)
    (full : c.keys.length = order - 1) (lt : u.length < order - 1) {s₁ : IndexBtree} {kPrime : Key}
    (run : s.splitNl order c.addr u.length key right = some (s₁, kPrime, s.fresh)) :
    IndexBtree.insertIntoParent order (rounds + 1) s left key right =
      IndexBtree.insertIntoParent order rounds s₁ c.addr kPrime s.fresh := by
  rw [IndexBtree.insertIntoParent, p.parent, if_neg child]
  simp only [p.holds.insertIdx_eq, p.place, Option.bind_eq_bind]
  rw [if_pos lt]
  simp only [Option.bind_some, p.holds.numKeys]
  rw [if_neg (by omega), run]
  rfl

end Calls

/-- The condition looks at the levels above only. -/
theorem ParentFits.congr {below : List (Nat × Ptr)} {up : List Level}
    (above : Above order s below up) (nodes : ∀ a ∈ addrs up, s'.node a = s.node a)
    (parents : ∀ e ∈ below, (s'.node e.2).parent = (s.node e.2).parent) {rounds lo : Nat}
    {left : Ptr} (mem : (lo, left) ∈ below) {key : Key} :
    ParentFits order s' rounds left key ↔ ParentFits order s rounds left key := by
  induction rounds generalizing below up lo left key with
  | zero => exact Iff.rfl
  | succ rounds ih =>
    have parent := parents _ mem
    cases up with
    | nil =>
      obtain ⟨a, alone, none, -⟩ := above
      obtain ⟨rfl, rfl⟩ := Prod.mk.inj (List.mem_singleton.mp (alone ▸ mem))
      unfold ParentFits
      simp only [parent, none, true_or]
    | cons level up =>
      obtain ⟨split, holds, -, above⟩ := above
      obtain ⟨c, hc, child⟩ := List.mem_flatMap.mp (split ▸ mem)
      have isParent : (s.node left).parent = c.addr := by
        obtain ⟨cell, -, children⟩ := holds c hc
        exact children left ((Cell.mem_kids_snd cell.length_pointers).mpr ⟨lo, child⟩)
      have same (d : Cell) (hd : d ∈ level) : s'.node d.addr = s.node d.addr :=
        nodes _ (mem_addrs_cons.mpr (.inl (List.mem_map_of_mem hd)))
      have keys : s'.keysOf c.addr = s.keysOf c.addr := by
        unfold IndexBtree.keysOf
        rw [same c hc]
      have rest (k : Key) : ParentFits order s' rounds c.addr k ↔
          ParentFits order s rounds c.addr k := by
        refine ih above (fun a ha => nodes a (mem_addrs_cons.mpr (.inr ha))) (fun e he => ?_)
          (List.mem_map_of_mem hc)
        obtain ⟨d, hd, rfl⟩ := List.mem_map.mp he
        exact congrArg BtNode.parent (same d hd)
      unfold ParentFits
      simp only [show (s'.node left).parent = c.addr from parent.trans isParent, isParent, keys, rest]

/-- **The levels above a split**. The call that puts a waiting node into the tree ends, without an
access outside of an array, exactly if the places of the nodes fit; the levels above are levels
again then. -/
theorem insertIntoParent_spec (three : 3 ≤ order) (limit : order ≤ 2 ^ 32)
    {front back : List (Nat × Ptr)} {lo : Nat} {left right : Ptr} {key : Key} {up : List Level}
    (h : Waiting order s front back lo left key right up) {rounds : Nat}
    (enough : up.length < rounds) :
    (ParentFits order s rounds left key → ∃ s' up',
      IndexBtree.insertIntoParent order rounds s left key right = some s' ∧
        Placed order s s' (withNew front back lo left key right) up up') ∧
    (¬ ParentFits order s rounds left key →
      IndexBtree.insertIntoParent order rounds s left key right = none) := by
  induction up generalizing s front back lo left key right rounds with
  | nil =>
    -- the root has been split
    obtain ⟨rounds, rfl⟩ : ∃ r, rounds = r + 1 := ⟨rounds - 1, by simp at enough; omega⟩
    obtain ⟨top, s', up', run, placed⟩ := h.newRoot (show 2 ≤ order by omega)
    refine ⟨fun _ => ⟨s', up', ?_, placed⟩, fun never => absurd (.inl top) never⟩
    unfold IndexBtree.insertIntoParent
    rw [top, if_pos rfl]
    exact run
  | cons level up ih =>
    rw [List.length_cons] at enough
    obtain ⟨rounds, rfl⟩ : ∃ r, rounds = r + 1 := ⟨rounds - 1, by omega⟩
    obtain ⟨l₁, l₂, c, u, v, p⟩ := h.hasParent
    have mine : c.addr ∈ addrs (level :: up) := by
      rw [addrs_cons, p.level]
      simp
    have child : c.addr ≠ null := (h.known _ (List.mem_append_right _ mine)).1
    have numKeys := p.holds.numKeys
    have fits : ParentFits order s (rounds + 1) left key ↔
        c.keys.length < order - 1 ∧ 0 < u.length ∨ c.keys.length = order - 1 ∧
          u.length < order - 1 ∧ ∀ kPrime ∈ (c.keys.insertIdx u.length key)[cut order - 1]?,
            ParentFits order s rounds c.addr kPrime := by
      rw [ParentFits, p.parent]
      simp only [p.holds.keysOf, p.place, child, false_or]
    rw [fits]
    -- the parent has room, or it is split and the levels above it are next
    rcases Nat.lt_or_eq_of_le p.holds.few with few | full
    · constructor
      · rintro (⟨-, pos⟩ | ⟨full, -⟩)
        · obtain ⟨s', run, placed⟩ := h.room limit p rounds few pos
          exact ⟨s', _, run, placed⟩
        · omega
      · -- at the first index, `i - 1` of the shift wraps around
        intro never
        refine p.insertIntoParent_front limit child few ?_
        by_contra pos
        exact never (.inl ⟨few, by omega⟩)
    · obtain ⟨-, holdsAll, -, -⟩ := h.above
      obtain ⟨s₁, kPrime, run, split⟩ := splitNl_spec key right (show 2 ≤ order by omega) p.holds full
        p.length_le (Nat.ne_of_lt (h.known _ (List.mem_append_right _ mine)).2) fun x hx => by
          have below := p.mem_withNew (fun d hd => (holdsAll d hd).1)
            (List.mem_append_right _ List.mem_cons_self) hx
          exact ⟨h.ne below mine, Nat.ne_of_lt (h.known _ (List.mem_append_left _ below)).2⟩
      -- the halves of the parent wait for a key one level up
      have waiting := h.passUp p split
      have middle : (c.keys.insertIdx u.length key)[cut order - 1]? = some kPrime := split.middle
      have same : ParentFits order s₁ rounds c.addr kPrime ↔
          ParentFits order s rounds c.addr kPrime := by
        obtain ⟨nodes, parents⟩ := p.unseen h split
        have mem : (c.low, c.addr) ∈ level.map Cell.bound := by
          rw [p.level]
          simp [Cell.bound]
        exact ParentFits.congr h.above.2.2.2 nodes parents mem
      obtain ⟨does, never⟩ := ih waiting (show up.length < rounds by omega)
      rw [middle]
      constructor
      · rintro (⟨few, -⟩ | ⟨-, lt, above⟩)
        · omega
        · obtain ⟨s', up', run', placed⟩ := does (same.mpr (above kPrime rfl))
          exact ⟨s', _, (p.insertIntoParent_full child full lt run).trans run',
            h.passDown p split placed three full⟩
      · intro not
        by_cases lt : u.length < order - 1
        · rw [p.insertIntoParent_full child full lt run]
          refine never fun above => not (.inr ⟨full, lt, fun k hk => ?_⟩)
          obtain rfl := Option.some.inj hk
          exact same.mp above
        · exact p.insertIntoParent_behind child lt

end DBx1000.Btree
