import Mathlib.Tactic.Choose
import DBx1000.Bskiplist.Below
import DBx1000.Bskiplist.Store

/-!
# Insertion

`bsl_insert` on a well formed list, run alone: at the first attempt it chains a value to the one
of its key, or makes the key an element of the levels up to its own, and the list stays well
formed.

## Main result

`insertOnce_ends`: the first attempt returns, with the value at its key.

## Proof strategy

The key comes into a node with room, whole or as one of the two halves of a full node; `Spot` is
what the two have in common. The levels below are those of `Bskiplist.Below`.
-/

namespace DBx1000.Bskiplist

open Program Hocc

variable {m t : Mem} {list : Bsl} {lv : Levels} {l level fuel : Nat} {key : Key} {value : Val}
  {news : List Addr} {cells front back : List Cell} {c : Cell} {u v : List (Key × Nat)}
  {e : Key × Nat}

/-- The list does not notice what happens elsewhere. -/
theorem HasLevels.congr (h : HasLevels list lv m)
    (node : ∀ a < m.fresh, t.node a = m.node a ∧ (Idle (m.ctrl a) → Idle (t.ctrl a)))
    (fresh : m.fresh ≤ t.fresh) : HasLevels list lv t where
  shape := h.shape
  stands l lt := by
    have stands := h.stands l lt
    refine ⟨stands.linked.congr fun c hc => (node _ (stands.known c hc).2).1, stands.sorted,
      fun c hc => ?_, fun c hc => (node _ (stands.known c hc).2).2 (stands.idle c hc)⟩
    have known := stands.known c hc
    exact ⟨known.1, Nat.lt_of_lt_of_le known.2 fresh⟩

/-! ### The new nodes -/

/-- The allocated nodes are the next ones, blank and locked. -/
theorem allocNodes_ends {count : Nat} {Q : List Addr → Mem → Prop} (pos : 0 < fuel)
    (goal : ∀ t, t.fresh = m.fresh + count →
      (∀ a < m.fresh, t.node a = m.node a ∧ t.ctrl a = m.ctrl a) →
      (∀ a, m.fresh ≤ a → a < t.fresh → t.node a = Node.zero) →
      t.itemNext = m.itemNext → t.output = m.output → Q (List.range' m.fresh count) t) :
    (allocNodes fuel count).Ends exec Q m := by
  induction count generalizing m Q with
  | zero =>
    refine goal m rfl (fun a _ => ⟨rfl, rfl⟩) (fun a le lt => ?_) rfl rfl
    exact absurd lt (Nat.not_lt.mpr le)
  | succ count ih =>
    rw [allocNodes, Prog.ends_bind, ends_nodeAlloc, Prog.ends_bind, ends_writeLock pos]
    · rw [Prog.ends_bind]
      apply ih
      intro t fresh others blank items output
      have next : t.fresh = m.fresh + (count + 1) := by
        rw [fresh]
        exact Nat.add_right_comm m.fresh 1 count
      refine goal t next (fun a lt => ?_) (fun a le lt => ?_) items output
      · have ne := Nat.ne_of_lt lt
        obtain ⟨node, ctrl⟩ := others a (Nat.lt_succ_of_lt lt)
        rw [node, ctrl]
        simp [Mem.setCtrl, Mem.setNode, ne]
      · rcases Nat.eq_or_lt_of_le le with rfl | lt'
        · rw [(others _ (Nat.lt_succ_self _)).1]
          simp [Mem.setCtrl, Mem.setNode]
        · exact blank a lt' lt
    · simp only [Mem.setCtrl, Mem.setNode, Function.update_self]
      exact idle_hoccInit

/-! ### The level of the key -/

/-- The place of a new key on its level, in a node with room, and the levels below. -/
structure Spot (key : Key) (news : List Addr) (lv : Levels) (cells front : List Cell) (c : Cell)
    (back : List Cell) (u : List (Key × Nat)) (e : Key × Nat) (v : List (Key × Nat)) (m : Mem) :
    Prop where
  ready : Ready key news lv (levelForKey key) m
  linked : Linked m.node (levelForKey key) cells
  sorted : Increasing (flat cells)
  children : ∀ l, l + 1 = levelForKey key → ∀ e ∈ flat cells, e ∈ bounds (lv l)
  cut : Cut key cells front c back
  split : Split key c.entries u e v
  absent : e.1 ≠ key
  room : c.entries.length < capacity
  known : c.addr ≠ null

/-- The node with the key. -/
def Mem.withKey (m : Mem) (n : Addr) (rank : Nat) (key : Key) (slot : Nat) : Mem :=
  m.setNode n ((m.node n).insertSlot rank key slot)

theorem Spot.mem (spot : Spot key news lv cells front c back u e v m) : c ∈ cells := by
  rw [spot.cut.cells]
  simp

theorem Spot.held (spot : Spot key news lv cells front c back u e v m) :
    c.Held m.node (levelForKey key) (link back) := by
  have linked := spot.linked
  rw [spot.cut.cells] at linked
  exact linked.held

theorem Spot.elems (spot : Spot key news lv cells front c back u e v m) (slot : Nat) :
    ((m.node c.addr).insertSlot (u.length + 1) key slot).Elems (u ++ e :: (key, slot) :: v) := by
  have elems := spot.held.elems
  have parts : c.entries = (u ++ [e]) ++ v := by
    rw [spot.split.entries, List.append_assoc, List.singleton_append]
  rw [parts] at elems
  have new := elems.insertSlot key slot
  simpa using new

/-- The levels below do not have the node. -/
theorem Spot.ready_withKey (spot : Spot key news lv cells front c back u e v m) (rank slot : Nat) :
    Ready key news lv (levelForKey key) (m.withKey c.addr rank key slot) := by
  refine spot.ready.congr ?_ ?_ (Nat.le_refl _)
  · intro l lt d hd
    have ne : d.addr ≠ c.addr := by
      intro eq
      obtain ⟨after, held⟩ := (spot.ready.stands l lt).linked.held_of_mem hd
      exact Nat.ne_of_lt lt (held.level.symm.trans (eq ▸ spot.held.level))
    rw [Mem.withKey, Mem.setNode_node, Function.update_of_ne ne]
    exact ⟨rfl, id⟩
  · intro l lt
    have ne := spot.linked.ne_blank spot.mem (spot.ready.blank l lt)
    rw [Mem.withKey, Mem.setNode_node, Function.update_of_ne ne.symm]

theorem Spot.insertInto_ends (spot : Spot key news lv cells front c back u e v m)
    (max : key < keyMax) (fueled : Fueled fuel lv) :
    (insertInto fuel key value news c.addr u.length).Ends exec (fun _ t =>
      Below key value news lv (levelForKey key) c.addr
        (m.withKey c.addr (u.length + 1) key (slotAt key value news (levelForKey key))) t ∧
      Idle (t.ctrl c.addr)) m := by
  have held := spot.held
  have num := held.elems.numElts
  have len : c.entries.length = u.length + 1 + v.length := by
    rw [spot.split.entries, List.length_append, List.length_cons]
    omega
  have le : u.length + 1 ≤ (m.node c.addr).numElts := by omega
  have room : (m.node c.addr).numElts < capacity := num ▸ spot.room
  unfold insertInto
  dsimp only
  -- a leaf gets the value, an inner node the new node below
  rcases Nat.eq_zero_or_pos (levelForKey key) with zero | pos
  · rw [if_neg (by omega)]
    change Prog.Ends exec (insertSlot c.addr (u.length + 1) key value >>= _) _ _
    have leaf : slotAt key value news (levelForKey key) = value := by rw [zero, slotAt]
    rw [Prog.ends_bind, ends_insertSlot le room, ends_writeUnlock, leaf]
    constructor
    · refine ⟨fun l lt => absurd lt (by omega), fun a _ => rfl, fun a was => ?_, rfl, rfl, rfl⟩
      rw [Mem.setCtrl_ctrl, Function.update_apply]
      split
      · exact idle_hoccUnlocked _
      · rcases was with was | ⟨never, -⟩ | ⟨l, lt, -⟩
        · exact was
        · exact absurd zero never
        · omega
    · rw [Mem.setCtrl_ctrl, Function.update_self]
      exact idle_hoccUnlocked _
  · obtain ⟨level, eq⟩ := Nat.exists_eq_add_one.mpr pos
    have first : news.getD 0 null = slotAt key value news (levelForKey key) := by
      rw [eq, slotAt, nodeAt, eq, Nat.add_sub_cancel, Nat.sub_self]
    rw [if_pos pos]
    change Prog.Ends exec (insertSlot c.addr (u.length + 1) key (news.getD 0 null) >>= _) _ _
    rw [first, Prog.ends_bind, ends_insertSlot le room, Prog.ends_bind, ends_loadSlot,
      Mem.setNode_node, Function.update_self,
      (spot.elems (slotAt key value news (levelForKey key))).slots u.length (by simp)]
    simp only [List.getElem_append_right (Nat.le_refl _), Nat.sub_self, List.getElem_cons_zero]
    -- the insertion goes on at the child of the key before
    have child : e ∈ bounds (lv level) := by
      refine spot.children level eq.symm e (mem_flat.mpr ⟨c, spot.mem, ?_⟩)
      rw [spot.split.entries]
      simp
    obtain ⟨d, hd, isFirst, addr⟩ := mem_bounds.mp child
    have start : levelForKey key ≠ 0 →
        ∃ d ∈ lv (levelForKey key - 1), d.first ≤ key ∧ d.addr = e.2 := by
      intro _
      rw [eq]
      exact ⟨d, hd, isFirst ▸ spot.split.low, addr⟩
    have ends := (spot.ready_withKey (u.length + 1)
      (slotAt key value news (levelForKey key))).insertBelow_ends value c.addr max fueled
        (Nat.le_refl _) start
    rw [Nat.sub_self] at ends
    refine ends.mono fun _ t below => ⟨below, ?_⟩
    exact below.idle _ (.inr (.inl ⟨Nat.ne_of_gt pos, rfl, spot.known⟩))

/-- The levels that have got the key make a well formed list. -/
theorem HasLevels.inserted (h : HasLevels list lv m) (value : Val) (news : List Addr)
    (new : Nat → Addr → Prop) (min : keyMin < key) (max : key < keyMax)
    (grown : ∀ l ≤ levelForKey key, ∃ cells',
      Grown key (slotAt key value news l) (new l) (lv l) cells' ∧
      (l < levelForKey key → (key, nodeAt key news l) ∈ bounds cells') ∧ Linked t.node l cells')
    (known : ∀ l ≤ levelForKey key, ∀ a, new l a → (a ≠ null ∧ a < t.fresh) ∧ Idle (t.ctrl a))
    (others : ∀ l, levelForKey key < l → l < maxLevel → ∀ c ∈ lv l, t.node c.addr = m.node c.addr)
    (idle : ∀ l < maxLevel, ∀ c ∈ lv l, Idle (t.ctrl c.addr)) (fresh : m.fresh ≤ t.fresh) :
    ∃ lv', HasLevels list lv' t ∧ Grown key value (new 0) (lv 0) (lv' 0) := by
  choose! f isGrown isBound isLinked using grown
  -- the levels up to that of the key have grown, and the others are the same
  have above : ∀ l, levelForKey key < l → (if l ≤ levelForKey key then f l else lv l) = lv l :=
    fun l lt => if_neg (Nat.not_le.mpr lt)
  have low : ∀ l ≤ levelForKey key, (if l ≤ levelForKey key then f l else lv l) = f l :=
    fun l le => if_pos le
  refine ⟨fun l => if l ≤ levelForKey key then f l else lv l, ⟨?_, fun l lt => ?_⟩, ?_⟩
  · apply h.shape.grown min max (slotAt key value news) above
    · intro l le
      rw [low l le]
      exact isGrown l le
    · intro l lt
      rw [low l (Nat.le_of_lt lt)]
      exact isBound l (Nat.le_of_lt lt) lt
  · have stands := h.stands l lt
    have later {c : Cell} (hc : c ∈ lv l) : c.addr ≠ null ∧ c.addr < t.fresh :=
      ⟨(stands.known c hc).1, Nat.lt_of_lt_of_le (stands.known c hc).2 fresh⟩
    by_cases le : l ≤ levelForKey key
    · rw [low l le]
      have place : ∀ c ∈ f l, (c.addr ≠ null ∧ c.addr < t.fresh) ∧ Idle (t.ctrl c.addr) := by
        intro c hc
        rcases (isGrown l le).addrs c hc with mem | isNew
        · obtain ⟨d, hd, eq⟩ := List.mem_map.mp mem
          rw [← eq]
          exact ⟨later hd, idle l lt d hd⟩
        · exact known l le _ isNew
      exact ⟨isLinked l le, (isGrown l le).increasing stands.sorted, fun c hc => (place c hc).1,
        fun c hc => (place c hc).2⟩
    · rw [above l (Nat.lt_of_not_le le)]
      exact ⟨stands.linked.congr (others l (Nat.lt_of_not_le le) lt), stands.sorted,
        fun c hc => later hc, idle l lt⟩
  · dsimp only
    rw [low 0 (Nat.zero_le _)]
    exact isGrown 0 (Nat.zero_le _)

/-! ### A full node -/

/-- A node leaves the second part of its elements to a blank one. -/
theorem splitHalf_ends {α : Type} {next : Prog α} {Q : α → Mem → Prop} {a b : Addr} (ne : a ≠ b)
    (elems : (m.node a).Elems (u ++ v)) (blank : m.node b = Node.zero) (some : v ≠ [])
    (room : v.length ≤ capacity)
    (goal : ∀ d e : Node, d.Elems u → d.level = (m.node a).level → d.nextHeader = firstKey v →
      d.next = b → e.Elems v → e.level = level → e.nextHeader = (m.node a).nextHeader →
      e.next = (m.node a).next → next.Ends exec Q (m.pair a d b e)) :
    Prog.Ends exec (do
      storeNext b (← loadNext a)
      storeNextHeader b (← loadNextHeader a)
      storeLevel b level
      let eltsMoved ← splitKeys a b u.length 0
      storeNextHeader a (← loadKey b 0)
      storeNext a b
      memmoveSlots b 0 a u.length eltsMoved
      next) Q m := by
  suffices h : Prog.Ends exec _ Q (m.pair a (m.node a) b (m.node b)) by rwa [Mem.pair_self] at h
  have count : (m.node a).numElts - u.length = v.length := by
    rw [elems.numElts, List.length_append, Nat.add_sub_cancel_left]
  have le : u.length ≤ (m.node a).numElts := by
    rw [elems.numElts, List.length_append]
    exact Nat.le_add_right _ _
  -- the new node is empty before the elements are moved
  have zero : Node.Elems { Node.zero with
      next := (m.node a).next, nextHeader := (m.node a).nextHeader, level := level } [] :=
    ⟨rfl, fun i lt => absurd lt (Nat.not_lt_zero i), fun i lt => absurd lt (Nat.not_lt_zero i)⟩
  unfold storeNextHeader storeNext storeLevel
  simp only [Prog.ends_bind, ends_loadNextHeader, ends_loadNext, ends_storeNode,
    Mem.node_left ne, Mem.node_right, Mem.setNode_right, blank]
  rw [ends_splitKeys ne le (by omega), count, ends_loadKey, Mem.node_right, Mem.setNode_left ne,
    Mem.node_left ne, Mem.setNode_left ne, Mem.node_left ne, ends_memmoveSlots ne (by omega)]
  have both := zero.append elems
  refine goal _ _ ⟨rfl, elems.take.keys, elems.take.slots⟩ rfl ?_ rfl both rfl rfl rfl
  exact (both.head some).1

/-! ### A key that is not there -/

theorem Spot.apart (spot : Spot key news lv cells front c back u e v m) {d : Cell} (hd : d ∈ cells)
    (lt : l < levelForKey key) : d.addr ∉ (lv l).map Cell.addr ∧ d.addr ≠ nodeAt key news l := by
  refine ⟨fun mem => ?_, spot.linked.ne_blank hd (spot.ready.blank l lt)⟩
  obtain ⟨d', hd', eq⟩ := List.mem_map.mp mem
  obtain ⟨after, held⟩ := spot.linked.held_of_mem hd
  obtain ⟨after', held'⟩ := (spot.ready.stands l lt).linked.held_of_mem hd'
  exact Nat.ne_of_lt lt (held'.level.symm.trans (eq ▸ held.level))

/-- What the level of the key has after the insertion. -/
theorem Spot.linked_withKey (spot : Spot key news lv cells front c back u e v m) (slot : Nat) :
    Linked (m.withKey c.addr (u.length + 1) key slot).node (levelForKey key)
      (front ++ ⟨c.addr, u ++ e :: (key, slot) :: v⟩ :: back) := by
  have held := spot.held
  have linked := spot.linked
  have nodup := linked.nodup spot.sorted
  rw [spot.cut.cells] at linked nodup
  rw [List.map_append, List.map_cons, List.nodup_middle, List.nodup_cons, ← List.map_append]
    at nodup
  have same : (m.withKey c.addr (u.length + 1) key slot).node c.addr =
      (m.node c.addr).insertSlot (u.length + 1) key slot := Function.update_self ..
  apply linked.one
  · rw [Cell.bound, Cell.bound, Cell.first, Cell.first, spot.split.entries]
    cases u with
    | nil => rfl
    | cons x u => rfl
  · intro d hd
    have ne : d.addr ≠ c.addr := fun eq => nodup.1 (eq ▸ List.mem_map_of_mem hd)
    exact Function.update_of_ne ne ..
  · have room := spot.room
    rw [spot.split.entries, List.length_append, List.length_cons] at room
    refine ⟨same ▸ spot.elems slot, same ▸ held.level, same ▸ held.nextHeader, same ▸ held.next,
      by simp, ?_⟩
    simp only [List.length_append, List.length_cons]
    omega

/-- The list after the insertion of a key at its spot in `t`, where some nodes are new. -/
theorem HasLevels.spot_ends (h : HasLevels list lv m) (old : Addr → Prop) (min : keyMin < key)
    (max : key < keyMax) (fueled : Fueled fuel lv) {Q : Unit → Mem → Prop}
    (spot : Spot key news lv cells front c back u e v t)
    (known : ∀ l < levelForKey key, nodeAt key news l ≠ null ∧ nodeAt key news l < t.fresh)
    (same : flat cells = flat (lv (levelForKey key)))
    (more : ∀ b ∈ bounds (lv (levelForKey key)), b ∈ bounds cells)
    (head : (bounds cells).head? = (bounds (lv (levelForKey key))).head?)
    (addrs : ∀ d ∈ cells, d.addr ∈ (lv (levelForKey key)).map Cell.addr ∨ old d.addr)
    (others : ∀ a < m.fresh, a ∉ (lv (levelForKey key)).map Cell.addr → t.node a = m.node a)
    (idle : ∀ a < m.fresh, a ≠ c.addr → Idle (m.ctrl a) → Idle (t.ctrl a))
    (isNew : ∀ a, old a → m.fresh ≤ a ∧ a < t.fresh ∧ (a ≠ c.addr → Idle (t.ctrl a)))
    (kept : m.fresh ≤ t.fresh ∧ t.itemNext = m.itemNext ∧ t.output = m.output)
    (goal : ∀ t lv' new, HasLevels list lv' t → Grown key value new (lv 0) (lv' 0) →
      t.itemNext = m.itemNext → t.output = m.output → Q () t) :
    (insertInto fuel key value news c.addr u.length).Ends exec Q t := by
  have lt := levelForKey_lt key
  refine (spot.insertInto_ends max fueled).mono ?_
  rintro - t' ⟨below, idleC⟩
  have grown := spot.cut.grown_insert spot.split spot.sorted spot.linked.some spot.absent
    (slotAt key value news (levelForKey key))
  -- a node of the list is not a new one
  have pos : 0 < m.fresh := by
    obtain ⟨d, rest, eq, -⟩ := h.head (l := 0) (by decide)
    have known := (h.stands 0 (by decide)).known d (eq ▸ List.mem_cons_self)
    exact Nat.lt_of_le_of_lt (Nat.zero_le _) known.2
  have result := h.inserted (t := t') value news
    (fun l a => l < levelForKey key ∧ a = nodeAt key news l ∨ l = levelForKey key ∧ old a) min max
    ?_ ?_ ?_ ?_ ?_
  · obtain ⟨lv', has, isGrown⟩ := result
    exact goal t' lv' _ has isGrown (below.itemNext.trans kept.2.1) (below.output.trans kept.2.2)
  · intro l le
    -- the level of the key, or one below with a node of its own
    rcases Nat.eq_or_lt_of_le le with rfl | lt'
    · refine ⟨_, (grown.of_parts same more head addrs).imp fun a is => .inr ⟨rfl, ?_⟩,
        fun never => absurd never (Nat.lt_irrefl _), ?_⟩
      · exact is.resolve_left id
      · refine (spot.linked_withKey _).congr fun d hd => below.others _ fun l lt' => ?_
        rcases grown.addrs d hd with mem | never
        · obtain ⟨d', hd', eq⟩ := List.mem_map.mp mem
          exact eq ▸ spot.apart hd' lt'
        · exact never.elim
    · obtain ⟨cells', isGrown, bound, linked⟩ := below.grown l lt'
      exact ⟨cells', isGrown.imp fun a is => .inl ⟨lt', is⟩, fun _ => bound, linked⟩
  · rintro l - a (⟨lt', rfl⟩ | ⟨rfl, is⟩)
    · refine ⟨⟨(known l lt').1, ?_⟩, below.idle _ (.inr (.inr ⟨l, lt', rfl⟩))⟩
      rw [below.fresh]
      exact (known l lt').2
    · have ⟨ge, lt', free⟩ := isNew a is
      refine ⟨⟨Nat.ne_of_gt (Nat.lt_of_lt_of_le pos ge), ?_⟩, ?_⟩
      · rw [below.fresh]
        exact lt'
      · by_cases isC : a = c.addr
        · exact isC ▸ idleC
        · exact below.idle a (.inl (free isC))
  · intro l gt lt' d hd
    have old := (h.stands l lt').known d hd
    have apart {l' : Nat} (ne : l ≠ l') (lt'' : l' < maxLevel) :
        d.addr ∉ (lv l').map Cell.addr := by
      intro mem
      obtain ⟨d', hd', eq⟩ := List.mem_map.mp mem
      exact h.addr_ne lt' lt'' ne hd hd' eq.symm
    have node := others d.addr old.2 (apart (Nat.ne_of_gt gt) lt)
    -- a node of a level above is not the one that gets the key
    have neC : d.addr ≠ c.addr := by
      intro eq
      rcases addrs c spot.mem with mem | is
      · exact apart (Nat.ne_of_gt gt) lt (eq ▸ mem)
      · exact Nat.not_le.mpr old.2 (eq ▸ (isNew _ is).1)
    rw [below.others, Mem.withKey, Mem.setNode_node, Function.update_of_ne neC, node]
    intro l' lt''
    refine ⟨apart (by omega) (by omega), fun eq => ?_⟩
    have blank := spot.ready.blank l' lt''
    rw [← eq, node] at blank
    exact (h.stands l lt').linked.ne_blank hd blank rfl
  · intro l lt' d hd
    by_cases isC : d.addr = c.addr
    · exact isC ▸ idleC
    · have stands := h.stands l lt'
      exact below.idle _ (.inl (idle _ (stands.known d hd).2 isC (stands.idle d hd)))
  · rw [below.fresh]
    exact kept.1

/-- The level of the key when the full node `c` has been split: the second half of its entries is in
the new node. -/
structure Halved (m : Mem) (level : Nat) (front : List Cell) (c : Cell) (half : Nat)
    (back : List Cell) (t : Mem) : Prop where
  linked : Linked t.node level (halves front c half m.fresh back)
  others : ∀ a, a ≠ c.addr → a ≠ m.fresh → t.node a = m.node a
  idle : ∀ a, a ≠ m.fresh → a ≠ c.addr → Idle (m.ctrl a) → Idle (t.ctrl a)
  fresh : t.fresh = m.fresh + 1
  itemNext : t.itemNext = m.itemNext
  output : t.output = m.output

/-- The key is inserted in one of the two halves. -/
theorem HasLevels.insertHalf_ends (h : HasLevels list lv m) (min : keyMin < key) (max : key < keyMax)
    (fueled : Fueled fuel lv) {half : Nat} {front' back' : List Cell} {x : Cell}
    {u' v' : List (Key × Nat)} {Q : Unit → Mem → Prop}
    (ready : Ready key news lv (levelForKey key) m)
    (known : ∀ l < levelForKey key, nodeAt key news l ≠ null ∧ nodeAt key news l < m.fresh)
    (cells : lv (levelForKey key) = front ++ c :: back) (posHalf : 0 < half)
    (halved : Halved m (levelForKey key) front c half back t)
    (free : ∀ a, a = c.addr ∨ a = m.fresh → a ≠ x.addr → Idle (t.ctrl a))
    (cut : Cut key (halves front c half m.fresh back) front' x back')
    (split : Split key x.entries u' e v') (absent : e.1 ≠ key)
    (room : x.entries.length < capacity) (is : x.addr = c.addr ∨ x.addr = m.fresh)
    (goal : ∀ t lv' new, HasLevels list lv' t → Grown key value new (lv 0) (lv' 0) →
      t.itemNext = m.itemNext → t.output = m.output → Q () t) :
    (insertInto fuel key value news x.addr u'.length).Ends exec Q t := by
  have lt := levelForKey_lt key
  have stands := h.stands _ lt
  have hc : c ∈ lv (levelForKey key) := by
    rw [cells]
    simp
  have knownC := stands.known c hc
  have knownB : m.fresh ≠ null := Nat.ne_of_gt (Nat.lt_of_le_of_lt (Nat.zero_le _) knownC.2)
  have old {l : Nat} (lt' : l < maxLevel) {d : Cell} (hd : d ∈ lv l) : d.addr ≠ m.fresh :=
    Nat.ne_of_lt ((h.stands l lt').known d hd).2
  have apart {l : Nat} (lt' : l < levelForKey key) {d : Cell} (hd : d ∈ lv l) : d.addr ≠ c.addr :=
    h.addr_ne (Nat.lt_trans lt' lt) lt (Nat.ne_of_lt lt') hd hc
  -- the two halves have the elements of the level, and a bound more
  have same : flat (halves front c half m.fresh back) = flat (lv (levelForKey key)) := by
    rw [flat_halves, cells]
  have more : (∀ b ∈ bounds (front ++ c :: back),
      b ∈ bounds (halves front c half m.fresh back)) ∧
      (bounds (halves front c half m.fresh back)).head? = (bounds (front ++ c :: back)).head? :=
    bounds_halves m.fresh posHalf
  have addrs : ∀ d ∈ halves front c half m.fresh back,
      d.addr ∈ (front ++ c :: back).map Cell.addr ∨ d.addr = m.fresh := addrs_halves m.fresh
  rw [← cells] at more addrs
  have ready' : Ready key news lv (levelForKey key) t := by
    refine ready.congr (fun l lt' d hd => ?_) (fun l lt' => ?_) (halved.fresh ▸ Nat.le_succ _)
    · have neB := old (Nat.lt_trans lt' lt) hd
      exact ⟨halved.others _ (apart lt' hd) neB, halved.idle _ neB (apart lt' hd)⟩
    · have blank := ready.blank l lt'
      have neC : nodeAt key news l ≠ c.addr := (stands.linked.ne_blank hc blank).symm
      exact halved.others _ neC (Nat.ne_of_lt (known l lt').2)
  have children : ∀ l, l + 1 = levelForKey key →
      ∀ e ∈ flat (halves front c half m.fresh back), e ∈ bounds (lv l) := by
    intro l eq e he
    rw [same, ← eq] at he
    exact h.shape.children l (eq ▸ lt) e he
  have spot : Spot key news lv (halves front c half m.fresh back) front' x back' u' e v' t :=
    ⟨ready', halved.linked, same ▸ stands.sorted, children, cut, split, absent, room,
      is.elim (fun eq => eq ▸ knownC.1) fun eq => eq ▸ knownB⟩
  refine h.spot_ends (· = m.fresh) min max fueled spot (fun l lt' => ?_) same more.1 more.2 addrs
    (fun a lt' notIn => ?_) (fun a lt' neC' was => ?_) (fun a eq => ?_) ?_ goal
  · exact ⟨(known l lt').1, halved.fresh ▸ Nat.lt_succ_of_lt (known l lt').2⟩
  · exact halved.others a (fun eq => notIn (eq ▸ List.mem_map_of_mem hc)) (Nat.ne_of_lt lt')
  · by_cases isC : a = c.addr
    · exact free a (.inl isC) neC'
    · exact halved.idle a (Nat.ne_of_lt lt') isC was
  · have le : m.fresh ≤ a := Nat.le_of_eq eq.symm
    exact ⟨le, halved.fresh ▸ Nat.lt_succ_of_le (Nat.le_of_eq eq), free a (.inr eq)⟩
  · exact ⟨halved.fresh ▸ Nat.le_succ _, halved.itemNext, halved.output⟩

/-- The branch for a key that is not there, whose node is locked and perhaps full. -/
theorem HasLevels.insertNew_ends (h : HasLevels list lv m) (min : keyMin < key) (max : key < keyMax)
    (fueled : Fueled fuel lv) {w : Hocc64} {Q : Unit → Mem → Prop}
    (ready : Ready key news lv (levelForKey key) m)
    (known : ∀ l < levelForKey key, nodeAt key news l ≠ null ∧ nodeAt key news l < m.fresh)
    (cut : Cut key (lv (levelForKey key)) front c back) (split : Split key c.entries u e v)
    (absent : e.1 ≠ key)
    (goal : ∀ t lv' new, HasLevels list lv' t → Grown key value new (lv 0) (lv' 0) →
      t.itemNext = m.itemNext → t.output = m.output → Q () t) :
    (insertNew fuel key value news c.addr u.length).Ends exec Q (m.setCtrl c.addr w) := by
  have lt := levelForKey_lt key
  have pos : 0 < fuel := Nat.lt_of_le_of_lt (Nat.zero_le _) fueled.levels
  have stands := h.stands _ lt
  have hc : c ∈ lv (levelForKey key) := by
    rw [cut.cells]
    simp
  have linked := stands.linked
  rw [cut.cells] at linked
  have held := linked.held
  have knownC := stands.known c hc
  have idle : ∀ a, a ≠ c.addr → Idle (m.ctrl a) → Idle ((m.setCtrl c.addr w).ctrl a) := by
    intro a ne was
    rw [Mem.setCtrl_ctrl, Function.update_of_ne ne]
    exact was
  have children : ∀ l, l + 1 = levelForKey key → ∀ e ∈ flat (lv (levelForKey key)),
      e ∈ bounds (lv l) := by
    intro l eq e he
    rw [← eq] at he lt
    exact h.shape.children l lt e he
  have apart {l : Nat} (lt' : l < levelForKey key) {d : Cell} (hd : d ∈ lv l) : d.addr ≠ c.addr :=
    h.addr_ne (Nat.lt_trans lt' lt) lt (Nat.ne_of_lt lt') hd hc
  rw [insertNew, Prog.ends_bind, ends_loadNumElts, Mem.setCtrl_node, held.elems.numElts]
  by_cases full : c.entries.length + 1 > capacity
  · rw [if_pos full]
    -- the node is split in two halves, both with elements
    obtain ⟨half, eqHalf⟩ : ∃ half, half = c.entries.length / 2 := ⟨_, rfl⟩
    have some : 1 < capacity := by decide
    have few := held.few
    have posHalf : 0 < half := by omega
    have ltHalf : half < c.entries.length := by omega
    have lenL : (c.entries.take half).length = half := by
      rw [List.length_take, Nat.min_eq_left (Nat.le_of_lt ltHalf)]
    have lenR : (c.entries.drop half).length = c.entries.length - half := List.length_drop
    have someL : c.entries.take half ≠ [] := by
      rw [← List.length_pos_iff]
      omega
    have someR : c.entries.drop half ≠ [] := by
      rw [← List.length_pos_iff]
      omega
    have ne : c.addr ≠ m.fresh := Nat.ne_of_lt knownC.2
    rw [Prog.ends_bind, ends_nodeAlloc, Prog.ends_bind, ends_writeLock pos, Mem.setCtrl_fresh]
    swap
    · simp only [Mem.setCtrl, Mem.setNode, Function.update_self]
      exact idle_hoccInit
    generalize made : (Mem.setCtrl _ m.fresh _ : Mem) = m₃
    have blank : m₃.node m.fresh = Node.zero := by
      subst made
      simp [Mem.setCtrl, Mem.setNode]
    have node₃ : ∀ a, a ≠ m.fresh → m₃.node a = m.node a := by
      intro a neB
      subst made
      simp [Mem.setCtrl, Mem.setNode, neB]
    have idle₃ : ∀ a, a ≠ m.fresh → a ≠ c.addr → Idle (m.ctrl a) → Idle (m₃.ctrl a) := by
      intro a neB neC was
      subst made
      simp [Mem.setCtrl, Mem.setNode, neB, neC, was]
    have kept : m₃.fresh = m.fresh + 1 ∧ m₃.itemNext = m.itemNext ∧ m₃.output = m.output := by
      subst made
      exact ⟨rfl, rfl, rfl⟩
    dsimp only
    rw [← eqHalf]
    nth_rewrite 1 2 [← lenL]
    apply splitHalf_ends ne (v := c.entries.drop half)
    · rw [node₃ c.addr ne, List.take_append_drop]
      exact held.elems
    · exact blank
    · exact someR
    · omega
    intro dl dr left levelL headerL nextL right levelR headerR nextR
    have other : ∀ a, a ≠ c.addr → a ≠ m.fresh →
        (m₃.pair c.addr dl m.fresh dr).node a = m.node a := by
      intro a neC neB
      rw [Mem.node_other neC neB, node₃ a neB]
    have old {l : Nat} (lt' : l < maxLevel) {d : Cell} (hd : d ∈ lv l) : d.addr ≠ m.fresh :=
      Nat.ne_of_lt ((h.stands l lt').known d hd).2
    -- in the place of the old node stand the two halves
    have linkedH : Linked (m₃.pair c.addr dl m.fresh dr).node (levelForKey key)
        (halves front c half m.fresh back) := by
      have nodup := linked.nodup (cut.cells ▸ stands.sorted)
      rw [List.map_append, List.map_cons, List.nodup_middle, List.nodup_cons,
        ← List.map_append] at nodup
      rw [node₃ c.addr ne] at levelL headerR nextR
      apply linked.two (bound_take posHalf)
      · intro d hd
        have mem : d ∈ lv (levelForKey key) := by
          rw [cut.cells]
          exact List.mem_append.mpr ((List.mem_append.mp hd).imp_right (List.mem_cons_of_mem c))
        exact other _ (fun eq => nodup.1 (eq ▸ List.mem_map_of_mem hd)) (old lt mem)
      · exact ⟨Mem.node_left ne ▸ left, Mem.node_left ne ▸ levelL.trans held.level,
          Mem.node_left ne ▸ headerL, Mem.node_left ne ▸ nextL, someL, by simp only [lenL]; omega⟩
      · exact ⟨Mem.node_right ▸ right, Mem.node_right ▸ levelR,
          Mem.node_right ▸ headerR.trans held.nextHeader, Mem.node_right ▸ nextR.trans held.next,
          someR, by simp only [lenR]; omega⟩
    have halved (t : Mem) (node : t.node = (m₃.pair c.addr dl m.fresh dr).node)
        (idle : ∀ a, a ≠ m.fresh → a ≠ c.addr → Idle (m.ctrl a) → Idle (t.ctrl a))
        (kept : t.fresh = m.fresh + 1 ∧ t.itemNext = m.itemNext ∧ t.output = m.output) :
        Halved m (levelForKey key) front c half back t :=
      ⟨node ▸ linkedH, node ▸ other, idle, kept.1, kept.2.1, kept.2.2⟩
    rw [Prog.ends_bind, ends_loadNumElts, Mem.node_left ne, left.numElts, lenL]
    -- the key belongs into the left or the right half
    by_cases inLeft : u.length + 1 ≤ half
    · rw [if_pos inLeft, Prog.ends_bind, ends_writeUnlock]
      obtain ⟨cut', split'⟩ := cut.halves_left m.fresh split inLeft ltHalf
      -- the new node is free before the key is inserted in the old one
      refine h.insertHalf_ends (x := ⟨c.addr, c.entries.take half⟩) min max fueled ready known
        cut.cells posHalf (halved _ rfl (fun a neB neC was => ?_) kept) (fun a is neC => ?_) cut'
        split' absent (by simp only [lenL]; omega) (.inl rfl) goal
      · rw [Mem.setCtrl_ctrl, Function.update_of_ne neB]
        exact idle₃ a neB neC was
      · rw [is.resolve_left neC, Mem.setCtrl_ctrl, Function.update_self]
        exact idle_hoccUnlocked _
    · rw [if_neg inLeft, Prog.ends_bind, ends_loadNumElts, Mem.node_right, right.numElts,
        Prog.ends_bind, Prog.ends_assert]
      refine ⟨List.length_pos_iff.mpr someR, ?_⟩
      obtain ⟨cut', split'⟩ := cut.halves_right m.fresh split (stands.sorted.entries hc)
        (show half ≤ u.length by omega)
      rw [Prog.ends_bind, ends_writeUnlock, ← List.length_drop]
      refine h.insertHalf_ends (x := ⟨m.fresh, c.entries.drop half⟩) min max fueled ready known
        cut.cells posHalf (halved _ rfl (fun a neB neC was => ?_) kept) (fun a is neB => ?_) cut'
        split' absent (by simp only [lenR]; omega) (.inr rfl) goal
      · rw [Mem.setCtrl_ctrl, Function.update_of_ne neC]
        exact idle₃ a neB neC was
      · rw [is.resolve_right neB, Mem.setCtrl_ctrl, Function.update_self]
        exact idle_hoccUnlocked _
  · rw [if_neg full]
    have spot : Spot key news lv (lv (levelForKey key)) front c back u e v (m.setCtrl c.addr w) :=
      ⟨ready.congr (fun l lt' d hd => ⟨rfl, idle _ (apart lt' hd)⟩) (fun l _ => rfl)
        (Nat.le_refl _), stands.linked, stands.sorted, children, cut, split, absent, by omega,
        knownC.1⟩
    exact h.spot_ends (fun _ => False) min max fueled spot known rfl
      (fun b hb => hb) rfl (fun d hd => .inl (List.mem_map_of_mem hd)) (fun a _ _ => rfl)
      (fun a _ => idle a) (fun a never => never.elim) ⟨Nat.le_refl _, rfl, rfl⟩ goal

/-! ### A key that is there -/

/-- Another value for an element of a node. -/
theorem Node.Elems.setSlot {d : Node} {slot : Nat} (h : d.Elems (u ++ e :: v)) :
    Node.Elems { d with slots := Function.update d.slots u.length slot }
      (u ++ (e.1, slot) :: v) where
  numElts := by rw [h.numElts, List.length_append, List.length_append, List.length_cons,
    List.length_cons]
  keys i lt := by
    have lt' : i < (u ++ e :: v).length := by simpa using lt
    rw [h.keys i lt']
    rcases Nat.lt_trichotomy i u.length with before | rfl | behind
    · rw [List.getElem_append_left before, List.getElem_append_left before]
    · simp
    · rw [List.getElem_append_right (Nat.le_of_lt behind),
        List.getElem_append_right (Nat.le_of_lt behind), List.getElem_cons, List.getElem_cons,
        dif_neg (by omega), dif_neg (by omega)]
  slots i lt := by
    have lt' : i < (u ++ e :: v).length := by simpa using lt
    change Function.update d.slots u.length slot i = _
    rcases Nat.lt_trichotomy i u.length with before | rfl | behind
    · rw [Function.update_of_ne (Nat.ne_of_lt before), h.slots i lt',
        List.getElem_append_left before, List.getElem_append_left before]
    · simp
    · rw [Function.update_of_ne (Nat.ne_of_gt behind), h.slots i lt',
        List.getElem_append_right (Nat.le_of_lt behind),
        List.getElem_append_right (Nat.le_of_lt behind), List.getElem_cons, List.getElem_cons,
        dif_neg (by omega), dif_neg (by omega)]

/-- The list after a leaf has got another value for a key. -/
theorem HasLevels.valued (h : HasLevels list lv m) (value : Val) (cells : lv 0 = front ++ c :: back)
    (entries : c.entries = u ++ e :: v) (node : t.node = Function.update m.node c.addr
      { m.node c.addr with slots := Function.update (m.node c.addr).slots u.length value })
    (idle : ∀ a, Idle (m.ctrl a) → Idle (t.ctrl a)) (fresh : t.fresh = m.fresh) :
    ∃ lv', HasLevels list lv' t ∧
      flat (lv' 0) = (flat front ++ u) ++ (e.1, value) :: (v ++ flat back) := by
  have stands := h.stands 0 (by decide)
  have linked := stands.linked
  rw [cells] at linked
  have held := linked.held
  have hc : c ∈ lv 0 := by
    rw [cells]
    simp
  have above : ∀ l, l ≠ 0 →
      Function.update lv 0 (front ++ ⟨c.addr, u ++ (e.1, value) :: v⟩ :: back) l = lv l :=
    fun l ne => Function.update_of_ne ne ..
  -- the first key of the leaf is the same, so the levels above are
  have same : (Cell.mk c.addr (u ++ (e.1, value) :: v)).bound = c.bound := by
    rw [Cell.bound, Cell.bound, Cell.first, Cell.first, entries]
    cases u with
    | nil => rfl
    | cons x u => rfl
  have whole : flat (lv 0) = (flat front ++ u) ++ e :: (v ++ flat back) := by
    rw [cells, flat_append, flat_cons, entries]
    simp only [List.append_assoc, List.cons_append]
  have whole' : flat (front ++ ⟨c.addr, u ++ (e.1, value) :: v⟩ :: back) =
      (flat front ++ u) ++ (e.1, value) :: (v ++ flat back) := by
    rw [flat_append, flat_cons]
    simp only [List.append_assoc, List.cons_append]
  refine ⟨Function.update lv 0 _, ⟨h.shape.valued above ?_ ?_, fun l lt => ?_⟩, ?_⟩
  · rw [Function.update_self, whole, whole']
    simp only [List.map_append, List.map_cons]
  · rw [Function.update_self, cells, bounds_append, bounds_append, bounds_cons, bounds_cons, same]
  · have nodup := linked.nodup (cells ▸ stands.sorted)
    rw [List.map_append, List.map_cons, List.nodup_middle, List.nodup_cons,
      ← List.map_append] at nodup
    rcases Nat.eq_zero_or_pos l with rfl | pos
    · rw [Function.update_self]
      have here : t.node c.addr =
          { m.node c.addr with slots := Function.update (m.node c.addr).slots u.length value } := by
        rw [node, Function.update_self]
      have few := held.few
      have elems := held.elems
      rw [entries] at few elems
      have addrs : ∀ d ∈ front ++ ⟨c.addr, u ++ (e.1, value) :: v⟩ :: back,
          ∃ d' ∈ lv 0, d'.addr = d.addr := by
        intro d hd
        rw [cells]
        simp only [List.mem_append, List.mem_cons] at hd ⊢
        rcases hd with mem | rfl | mem
        · exact ⟨d, .inl mem, rfl⟩
        · exact ⟨c, .inr (.inl rfl), rfl⟩
        · exact ⟨d, .inr (.inr mem), rfl⟩
      refine ⟨linked.one same ?_ ?_, ?_, fun d hd => ?_, fun d hd => ?_⟩
      · intro d hd
        have ne : d.addr ≠ c.addr := fun eq => nodup.1 (eq ▸ List.mem_map_of_mem hd)
        rw [node, Function.update_of_ne ne]
      · refine ⟨here ▸ elems.setSlot, here ▸ held.level, here ▸ held.nextHeader, here ▸ held.next,
          by simp, ?_⟩
        simpa using few
      · have sorted := stands.sorted
        rw [whole] at sorted
        rw [whole']
        exact Assoc.Ascending.revalue sorted
      · obtain ⟨d', hd', eq⟩ := addrs d hd
        rw [← eq, fresh]
        exact stands.known d' hd'
      · obtain ⟨d', hd', eq⟩ := addrs d hd
        rw [← eq]
        exact idle _ (stands.idle d' hd')
    · have stands := h.stands l lt
      rw [above l (Nat.ne_of_gt pos)]
      refine ⟨stands.linked.congr fun d hd => ?_, stands.sorted, fun d hd => ?_,
        fun d hd => idle _ (stands.idle d hd)⟩
      · have ne := h.addr_ne lt (by decide) (Nat.ne_of_gt pos) hd hc
        rw [node, Function.update_of_ne ne]
      · rw [fresh]
        exact stands.known d hd
  · rw [Function.update_self]
    exact whole'

theorem ends_chainValue {n : Addr} {rank : Nat} {Q : Unit → Mem → Prop} (inside : rank < capacity) :
    (chainValue n rank value).Ends exec Q m ↔
      Q () (Mem.setNode
        { m with itemNext := Function.update m.itemNext value ((m.node n).slots rank) } n
        { m.node n with slots := Function.update (m.node n).slots rank value }) := by
  unfold chainValue storeSlot Program.Prog.assert
  rw [if_pos inside]
  rfl

/-- A value is chained to the one that an element of a leaf has, and the leaf is unlocked. -/
theorem HasLevels.chainValue_ends {α : Type} {next : Prog α} {Q : α → Mem → Prop}
    (h : HasLevels list lv m) (cells : lv 0 = front ++ c :: back)
    (entries : c.entries = u ++ e :: v) (w : Hocc64)
    (goal : ∀ t lv', HasLevels list lv' t →
      flat (lv' 0) = (flat front ++ u) ++ (e.1, value) :: (v ++ flat back) →
      t.itemNext = Function.update m.itemNext value e.2 → t.output = m.output →
      next.Ends exec Q t) :
    Prog.Ends exec (do
      chainValue c.addr u.length value
      writeUnlock c.addr
      next) Q (m.setCtrl c.addr w) := by
  have linked := (h.stands 0 (by decide)).linked
  rw [cells] at linked
  have held := linked.held
  have few := held.few
  have elems := held.elems
  rw [entries] at few elems
  have inside : u.length < capacity := by
    rw [List.length_append, List.length_cons] at few
    omega
  -- the slot holds the value that is put behind the new one
  have old : (m.node c.addr).slots u.length = e.2 := by
    rw [elems.slots u.length (by simp)]
    simp
  rw [Prog.ends_bind, ends_chainValue inside, Mem.setCtrl_node, old, Prog.ends_bind,
    ends_writeUnlock]
  generalize made : (Mem.setCtrl _ c.addr (hoccUnlocked _) : Mem) = t
  have result := h.valued (t := t) value cells entries ?_ ?_ ?_
  · obtain ⟨lv', has, eq⟩ := result
    refine goal t lv' has eq ?_ ?_
    · subst made
      rfl
    · subst made
      rfl
  · subst made
    rfl
  · intro a was
    subst made
    rw [Mem.setCtrl_ctrl, Function.update_apply]
    split
    · exact idle_hoccUnlocked _
    · next ne =>
      rw [Mem.setNode_ctrl]
      change Idle (Function.update m.ctrl c.addr w a)
      rwa [Function.update_of_ne ne]
  · subst made
    rfl

theorem destroyNodes_ends {Q : Unit → Mem → Prop}
    (goal : ∀ t, m.Same t → t.ctrl = m.ctrl → Q () t) : (destroyNodes news).Ends exec Q m := by
  induction news generalizing m with
  | nil => exact goal m (.refl m) rfl
  | cons n rest ih =>
    rw [destroyNodes]
    split
    · rw [Prog.ends_bind]
      apply ih
      intro t same ctrl
      exact goal t (Mem.Same.trans (t := (exec (.destroy n) m).2) ⟨rfl, rfl, rfl, rfl⟩ same) ctrl
    · exact ih goal

/-- The branch for a key that is there, in the locked node of its level. -/
theorem HasLevels.insertFound_ends (h : HasLevels list lv m) (fueled : Fueled fuel lv) {w : Hocc64}
    {Q : Option Nat → Mem → Prop} (cells : lv (levelForKey key) = front ++ c :: back)
    (entries : c.entries = u ++ e :: v) (isKey : e.1 = key)
    (goal : ∀ t lv' old p q, HasLevels list lv' t → flat (lv 0) = p ++ (key, old) :: q →
      flat (lv' 0) = p ++ (key, value) :: q → t.itemNext = Function.update m.itemNext value old →
      t.output = m.output → Q (some 1) t) :
    (insertFound fuel key value news c.addr u.length).Ends exec Q (m.setCtrl c.addr w) := by
  have lt := levelForKey_lt key
  have pos : 0 < fuel := Nat.lt_of_le_of_lt (Nat.zero_le _) fueled.levels
  have hc : c ∈ lv (levelForKey key) := by
    rw [cells]
    simp
  have stands := h.stands _ lt
  have linked := stands.linked
  rw [cells] at linked
  have held := linked.held
  have elems := held.elems
  rw [entries] at elems
  rw [insertFound, Prog.ends_bind, ends_loadLevel, Mem.setCtrl_node, held.level]
  rcases Nat.eq_zero_or_pos (levelForKey key) with zero | above
  · rw [if_pos zero, Prog.ends_bind, Prog.ends_assert]
    refine ⟨zero, ?_⟩
    rw [zero] at cells
    apply h.chainValue_ends cells entries
    intro t lv' has eq items output
    refine goal t lv' e.2 (flat front ++ u) (v ++ flat back) has ?_ (isKey ▸ eq) items output
    rw [cells, flat_append, flat_cons, entries, ← isKey]
    simp only [List.append_assoc, List.cons_append]
  · rw [if_neg (Nat.ne_of_gt above)]
    obtain ⟨level, eqLevel⟩ := Nat.exists_eq_add_one.mpr above
    have elem : e ∈ flat (lv (level + 1)) := by
      rw [← eqLevel]
      refine mem_flat.mpr ⟨c, hc, ?_⟩
      rw [entries]
      simp
    have down : (m.node c.addr).slots u.length = e.2 := by
      rw [elems.slots u.length (by simp)]
      simp
    rw [eqLevel] at lt
    obtain ⟨d, hd, first, addr⟩ := h.child lt elem
    have ne : d.addr ≠ c.addr :=
      h.addr_ne (Nat.lt_of_succ_lt lt) (eqLevel ▸ lt) (by omega) hd hc
    rw [Prog.ends_bind, ends_loadSlot, Mem.setCtrl_node, down, ← addr, Prog.ends_bind,
      ends_loadVersion, Prog.ends_bind, ends_writeUnlock, Mem.setCtrl_setCtrl]
    have h₁ : HasLevels list lv
        (m.setCtrl c.addr (hoccUnlocked ((m.setCtrl c.addr w).ctrl c.addr))) := by
      refine h.congr (fun a _ => ⟨rfl, fun was => ?_⟩) (Nat.le_refl _)
      rw [Mem.setCtrl_ctrl, Function.update_apply]
      split
      · exact idle_hoccUnlocked _
      · exact was
    generalize hoccUnlocked _ = free at h₁ ⊢
    have word : (m.setCtrl c.addr w).ctrl d.addr = (m.setCtrl c.addr free).ctrl d.addr := by
      rw [Mem.setCtrl_ctrl, Mem.setCtrl_ctrl, Function.update_of_ne ne, Function.update_of_ne ne]
    rw [word, Prog.ends_bind]
    apply h₁.foundDescent_ends (Nat.lt_of_succ_lt lt) _ hd
    · intro leaf hl begins
      have idle := (h₁.stands 0 (by decide)).idle leaf hl
      obtain ⟨front', back', cells'⟩ := List.append_of_mem hl
      obtain ⟨slot, rest, entries'⟩ :=
        exists_cons ((h₁.stands 0 (by decide)).linked.some leaf hl)
      have keyed : firstKey leaf.entries = key := begins.trans (first.trans isKey)
      rw [keyed] at entries'
      change Prog.Ends exec (writeLock fuel leaf.addr >>= _) _ _
      rw [Prog.ends_bind, ends_writeLock pos idle, Prog.ends_bind, ends_validate,
        Mem.setCtrl_ctrl, Function.update_self, validate_self, if_pos rfl]
      apply h₁.chainValue_ends (u := []) cells' entries'
      intro t lv' has eq items output
      rw [Prog.ends_bind]
      apply destroyNodes_ends
      intro t' same ctrl
      refine goal t' lv' slot (flat front') (rest ++ flat back') ?_ ?_ ?_ ?_ ?_
      · refine has.congr (fun a _ => ⟨congrFun same.node a, ?_⟩) (Nat.le_of_eq same.fresh.symm)
        rw [ctrl]
        exact id
      · rw [cells', flat_append, flat_cons, entries', List.cons_append]
      · rw [eq, List.append_nil]
      · rw [same.itemNext, items, Mem.setCtrl_itemNext]
      · rw [same.output, output, Mem.setCtrl_output]
    · have levels := fueled.levels
      omega

/-! ### The operation -/

theorem getD_range' (a count i : Nat) (lt : i < count) :
    (List.range' a count).getD i null = a + i := by
  rw [List.getD_eq_getElem _ _ (by simpa using lt), List.getElem_range']
  omega

/-- What the insertion of a new key finds: the levels below the one of the key, and new nodes. -/
theorem HasLevels.ready (h : HasLevels list lv m)
    (absent : key ∉ (flat (lv (levelForKey key))).map Prod.fst)
    (blank : ∀ l < levelForKey key, m.node (nodeAt key news l) = Node.zero)
    (apart : ∀ l l', l < levelForKey key → l' < levelForKey key →
      nodeAt key news l = nodeAt key news l' → l = l') :
    Ready key news lv (levelForKey key) m where
  stands l lt := h.stands l (Nat.lt_trans lt (levelForKey_lt key))
  children l lt := h.shape.children l (Nat.lt_trans lt (levelForKey_lt key))
  absent l lt mem := by
    have keys := h.shape.keys l (Nat.lt_trans lt (levelForKey_lt key)) key
    exact absent ((h.shape.keys _ (levelForKey_lt key) key).mpr
      ⟨(keys.mp mem).1, .inr (Nat.le_refl _)⟩)
  blank := blank
  apart := apart

/-- The insertion of a key, with new nodes for the levels below it. -/
theorem HasLevels.insertOnce_ends (h : HasLevels list lv m) (fueled : Fueled fuel lv)
    (min : keyMin < key) (max : key < keyMax) {Q : Option Nat → Mem → Prop}
    (known : ∀ l < levelForKey key, nodeAt key news l ≠ null ∧ nodeAt key news l < m.fresh)
    (blank : ∀ l < levelForKey key, m.node (nodeAt key news l) = Node.zero)
    (apart : ∀ l l', l < levelForKey key → l' < levelForKey key →
      nodeAt key news l = nodeAt key news l' → l = l')
    (new : ∀ t lv' isNew, key ∉ (flat (lv 0)).map Prod.fst → HasLevels list lv' t →
      Grown key value isNew (lv 0) (lv' 0) → t.itemNext = m.itemNext → t.output = m.output →
      Q (some 1) t)
    (found : ∀ t lv' old p q, HasLevels list lv' t → flat (lv 0) = p ++ (key, old) :: q →
      flat (lv' 0) = p ++ (key, value) :: q → t.itemNext = Function.update m.itemNext value old →
      t.output = m.output → Q (some 1) t) :
    (insertOnce fuel list key value news).Ends exec Q m := by
  have lt := levelForKey_lt key
  have pos : 0 < fuel := Nat.lt_of_le_of_lt (Nat.zero_le _) fueled.levels
  have stands := h.stands _ lt
  rw [insertOnce, Prog.ends_bind]
  apply h.insertTraversal_ends fueled max
  intro front c back cut
  have hc : c ∈ lv (levelForKey key) := by
    rw [cut.cells]
    simp
  obtain ⟨after, held⟩ := stands.linked.held_of_mem hc
  change Prog.Ends exec (writeLock fuel c.addr >>= _) _ _
  rw [Prog.ends_bind, ends_writeLock pos (stands.idle c hc), Prog.ends_bind, ends_validate,
    Mem.setCtrl_ctrl, Function.update_self, validate_self, if_pos rfl, Prog.ends_bind,
    ends_loadNumElts, Mem.setCtrl_node, held.elems.numElts, Prog.ends_bind]
  have elems : ((m.setCtrl c.addr (m.ctrl c.addr + hoccWriterBit)).node c.addr).Elems c.entries :=
    held.elems
  apply elems.findRankLinear_ends (stands.sorted.entries hc) held.some cut.low
  intro u e v split
  have whole := cut.split split stands.sorted stands.linked.some
  rw [Prog.ends_bind, ends_loadKey, Mem.setCtrl_node, (held.elems.at_split split).1]
  by_cases isKey : e.1 = key
  · rw [if_pos isKey]
    exact h.insertFound_ends fueled cut.cells split.entries isKey found
  · rw [if_neg isKey]
    have absent : key ∉ (flat (lv (levelForKey key))).map Prod.fst := by
      rw [whole.mem_iff stands.sorted]
      exact isKey
    rw [Prog.ends_bind]
    apply h.insertNew_ends min max fueled (h.ready absent blank apart) known cut split isKey
    intro t lv' isNew has grown items output
    refine new t lv' isNew (fun mem => absent ?_) has grown items output
    exact (h.shape.keys _ lt key).mpr ⟨mem, .inr (Nat.le_refl _)⟩

/-- The insertion of a key at the first attempt. -/
theorem insertFirst_ends (value : Val) {s : Store} (h : Represents list s m)
    (enough : Enough fuel s) (proper : Proper key) :
    Prog.Ends exec (do
      let newNodes ← allocNodes fuel (levelForKey key)
      insertOnce fuel list key value newNodes)
      (fun r t => r = some 1 ∧ Represents list (s.insert key value).2 t) m := by
  rw [Store.insert, if_pos proper]
  obtain ⟨⟨lv, has, flats⟩, items, output⟩ := h
  obtain ⟨min, max⟩ := proper
  have pos : 0 < fuel := Nat.lt_of_le_of_lt (Nat.zero_le _) enough.1
  have fueled : Fueled fuel lv := has.fueled enough.1 (by
    rw [flats]
    exact enough.2)
  rw [Prog.ends_bind]
  apply allocNodes_ends pos
  intro t fresh others blank items' output'
  have hasT : HasLevels list lv t := by
    refine has.congr (fun a lt => ?_) (fresh ▸ Nat.le_add_right _ _)
    rw [(others a lt).1, (others a lt).2]
    exact ⟨rfl, id⟩
  have node : ∀ l < levelForKey key, nodeAt key (List.range' m.fresh (levelForKey key)) l =
      m.fresh + (levelForKey key - 1 - l) := by
    intro l lt
    exact getD_range' _ _ _ (by omega)
  have posFresh : 0 < m.fresh := by
    obtain ⟨d, rest, eq, -⟩ := has.head (l := 0) (by decide)
    have known := (has.stands 0 (by decide)).known d (eq ▸ List.mem_cons_self)
    exact Nat.lt_of_le_of_lt (Nat.zero_le _) known.2
  apply hasT.insertOnce_ends fueled min max
  · intro l lt
    rw [node l lt, fresh]
    exact ⟨Nat.ne_of_gt (Nat.lt_of_lt_of_le posFresh (Nat.le_add_right _ _)),
      Nat.add_lt_add_left (show levelForKey key - 1 - l < levelForKey key by omega) _⟩
  · intro l lt
    rw [node l lt]
    refine blank _ (Nat.le_add_right _ _) (fresh ▸ Nat.add_lt_add_left ?_ _)
    omega
  · intro l l' lt lt' eq
    rw [node l lt, node l' lt'] at eq
    have same : levelForKey key - 1 - l = levelForKey key - 1 - l' := Nat.add_left_cancel eq
    omega
  · intro t' lv' isNew absent has' grown items₂ output₂
    refine ⟨rfl, ⟨⟨lv', has', ?_⟩, ?_, ?_⟩⟩
    · obtain ⟨p, q, eq, eq', before, behind⟩ := grown.flat
      cases p with
      | nil =>
        -- the sentinel is before every key that is inserted
        rw [flats, List.nil_append] at eq
        have lt := behind _ (eq ▸ List.mem_cons_self)
        exact absurd lt (Nat.not_lt_zero key)
      | cons x p =>
        rw [flats, List.cons_append] at eq
        obtain ⟨rfl, pairs⟩ := List.cons.inj eq
        rw [eq', pairs, List.cons_append,
          Assoc.put_new (fun e he => before e (List.mem_cons_of_mem _ he)) behind]
    · rw [flats, List.map_cons, List.mem_cons, not_or] at absent
      rw [items₂, items', items, Assoc.find_none absent.2]
    · rw [output₂, output', output]
  · intro t' lv' old p q has' eq eq' items₂ output₂
    have sorted := (has.stands 0 (by decide)).sorted
    cases p with
    | nil =>
      rw [flats] at eq
      exact absurd (Prod.mk.inj (List.cons.inj eq).1).1 (Nat.ne_of_lt min)
    | cons x p =>
      rw [flats] at eq sorted
      rw [List.cons_append] at eq
      obtain ⟨rfl, pairs⟩ := List.cons.inj eq
      have tail : Assoc.Ascending (p ++ (key, old) :: q) := pairs ▸ (List.pairwise_cons.mp sorted).2
      refine ⟨rfl, ⟨⟨lv', has', ?_⟩, ?_, ?_⟩⟩
      · rw [eq', pairs, Assoc.put_there tail, List.cons_append]
      · rw [items₂, items', items, pairs, Assoc.find_there tail]
      · rw [output₂, output', output]

/-- `bsl_insert`, run alone, does what the store says. -/
theorem bslInsert_ends {s : Store} (h : Represents list s m) (enough : Enough fuel s) :
    (bslInsert fuel list key value).Ends exec
      (fun r t => .code r = (s.insert key value).1 ∧
        Represents list (s.insert key value).2 t) m := by
  by_cases proper : Proper key
  · have pos : 0 < fuel := Nat.lt_of_le_of_lt (Nat.zero_le _) enough.1
    have first := insertFirst_ends value h enough proper
    rw [bslInsert, if_neg proper.inside, Prog.ends_bind]
    rw [Prog.ends_bind] at first
    refine first.mono fun news t ends => topRetry_ends pos (ends.mono fun r t' done => ?_)
    refine ⟨1, done.1, ?_, done.2⟩
    rw [Store.insert, if_pos proper]
  · rw [bslInsert, if_pos (outside_of_not_proper proper), Store.insert, if_neg proper]
    exact ⟨rfl, h⟩

end DBx1000.Bskiplist
