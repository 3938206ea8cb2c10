import DBx1000.Bskiplist.Insert

/-!
# Deletion

`bsl_delete` on a well formed list, run alone: at the first attempt it takes the key from the
levels up to its own, or finds that it is not there, and the list stays well formed.

## Main result

`deleteOnce_ends`: the first attempt returns, with the key gone from all levels.

## Proof strategy

When the search on the level of the key is over, `Found` says what is locked. Below, `Beside` is the
node that begins with the key and the one before it; the induction goes from the level of the key
down, with `Lower` for the levels to come.
-/

namespace DBx1000.Bskiplist

open Program Hocc

variable {m m₀ t : Mem} {list : Bsl} {lv : Levels} {l level fuel : Nat} {key : Key}
  {cells front mid rest back : List Cell} {c d : Cell} {u v : List (Key × Nat)} {e : Key × Nat}

/-! ### The node on the left -/

/-- Two nodes of a level stand there in the order of their first keys. -/
theorem exists_between (sorted : Increasing (flat cells)) (some : ∀ x ∈ cells, x.entries ≠ [])
    (hd : d ∈ cells) (hc : c ∈ cells) (lt : d.first < c.first) :
    ∃ front mid back, cells = front ++ d :: (mid ++ c :: back) := by
  obtain ⟨front, back, rfl⟩ := List.append_of_mem hc
  rcases List.mem_append.mp hd with mem | mem
  · obtain ⟨front', mid, rfl⟩ := List.append_of_mem mem
    exact ⟨front', mid, back, by simp⟩
  · rcases List.mem_cons.mp mem with rfl | mem
    · exact absurd lt (Nat.lt_irrefl _)
    · -- the first keys increase, so `d` is not behind `c`
      obtain ⟨slot, first⟩ := firstKey_mem (some d hd)
      have behind := sorted.suffix.first_le (e := (firstKey d.entries, slot)) <| by
        rw [flat_cons]
        exact List.mem_append_right _ (mem_flat.mpr ⟨d, mem, first⟩)
      rw [flat_cons, firstKey_append (some c hc)] at behind
      exact absurd lt (Nat.not_lt.mpr behind)

/-- The node with the key goes from a level, or its first element if it has others. -/
theorem unlinkFirst_ends {x : Cell} {slot : Nat} {Q : Unit → Mem → Prop}
    (linked : Linked m.node level (front ++ x :: c :: back))
    (nodup : ((front ++ x :: c :: back).map Cell.addr).Nodup)
    (entries : c.entries = (key, slot) :: v)
    (goal : ∀ t, Linked t.node level (front ++ x :: (c.behind ++ back)) →
      (∀ a, a ≠ x.addr → a ≠ c.addr → t.node a = m.node a) →
      (∀ a, a ≠ c.addr → t.ctrl a = m.ctrl a) → Idle (t.ctrl c.addr) →
      (t.fresh = m.fresh ∧ t.itemNext = m.itemNext ∧ t.output = m.output) → Q () t) :
    (unlinkFirst x.addr c.addr).Ends exec Q m := by
  have heldX := linked.suffix.1
  have heldC := linked.suffix.2.1
  have tail := linked.suffix.2.2
  have elems := heldC.elems
  have num := elems.numElts
  rw [entries, List.length_cons] at num
  rw [List.map_append, List.map_cons, List.map_cons] at nodup
  obtain ⟨-, nodup', cross⟩ := List.nodup_append.mp nodup
  obtain ⟨notX, nodupC⟩ := List.nodup_cons.mp nodup'
  obtain ⟨notC, -⟩ := List.nodup_cons.mp nodupC
  have ne : x.addr ≠ c.addr := fun eq => notX (eq ▸ List.mem_cons_self)
  have whole : front ++ x :: c :: back = front ++ [x, c] ++ back := by simp
  rw [whole] at linked
  have apart : ∀ d ∈ front, d.addr ≠ x.addr ∧ d.addr ≠ c.addr := by
    intro d hd
    have inside := List.mem_map_of_mem (f := Cell.addr) hd
    exact ⟨cross _ inside _ List.mem_cons_self,
      cross _ inside _ (List.mem_cons_of_mem _ List.mem_cons_self)⟩
  have apart' : ∀ d ∈ back, d.addr ≠ x.addr ∧ d.addr ≠ c.addr := by
    intro d hd
    have inside := List.mem_map_of_mem (f := Cell.addr) hd
    exact ⟨fun eq => notX (eq ▸ List.mem_cons_of_mem _ inside), fun eq => notC (eq ▸ inside)⟩
  -- the two nodes, and what they are then
  suffices pair : ∀ (dx dc : Node), dx.Elems x.entries → dx.level = level →
      dx.nextHeader = (link (c.behind ++ back)).1 → dx.next = (link (c.behind ++ back)).2 →
      (∀ y ∈ c.behind, y.Held (m.pair x.addr dx c.addr dc).node level (link back)) →
      ∀ t, t.node = (m.pair x.addr dx c.addr dc).node →
      t.ctrl = Function.update m.ctrl c.addr (hoccUnlocked (m.ctrl c.addr)) →
      t.fresh = m.fresh → t.itemNext = m.itemNext → t.output = m.output → Q () t by
    suffices h : Prog.Ends exec _ Q (m.pair x.addr (m.node x.addr) c.addr (m.node c.addr)) by
      rwa [Mem.pair_self] at h
    rw [unlinkFirst, Prog.ends_bind, ends_loadNumElts, Mem.node_right, num]
    cases v with
    | nil =>
      -- the node becomes empty: its left neighbour takes over its successor and its bound
      have gone : c.behind = [] := by rw [Cell.behind, entries, List.tail_cons]
      rw [gone] at pair
      unfold storeNextHeader storeNext storeNumElts
      simp only [List.length_nil, if_true, Prog.ends_bind, ends_loadNextHeader, ends_loadNext,
        ends_storeNode, ends_writeUnlock, Mem.node_left ne, Mem.node_right, Mem.setNode_left ne,
        Mem.setNode_right]
      refine pair { m.node x.addr with
        next := (m.node c.addr).next, nextHeader := (m.node c.addr).nextHeader }
        { m.node c.addr with numElts := 0 } ?_ ?_ heldC.nextHeader heldC.next
        (fun y hy => absurd hy List.not_mem_nil) _ rfl rfl rfl rfl rfl
      · exact ⟨heldX.elems.numElts, heldX.elems.keys, heldX.elems.slots⟩
      · exact heldX.level
    | cons e v =>
      -- the node keeps its other entries, and its left neighbour the new bound
      have stays : c.behind = [⟨c.addr, e :: v⟩] := by rw [Cell.behind, entries, List.tail_cons]
      rw [stays] at pair
      have few := heldC.few
      rw [entries] at elems few
      have elems' : ((m.node c.addr).deleteSlot 0).Elems (e :: v) := elems.deleteSlot (u := [])
      rw [if_neg (by simp), Prog.ends_bind, ends_deleteSlot, Mem.node_right, Mem.setNode_right,
        Prog.ends_bind, ends_loadKey, Mem.node_right, elems'.keys 0 (Nat.succ_pos _),
        Prog.ends_bind, storeNextHeader, ends_storeNode, Mem.node_left ne, Mem.setNode_left ne,
          ends_writeUnlock]
      · refine pair { m.node x.addr with nextHeader := e.1 } ((m.node c.addr).deleteSlot 0)
          ?_ ?_ rfl heldX.next (fun y hy => ?_) _ rfl rfl rfl rfl rfl
        · exact ⟨heldX.elems.numElts, heldX.elems.keys, heldX.elems.slots⟩
        · exact heldX.level
        · rw [List.mem_singleton.mp hy]
          refine ⟨?_, ?_, ?_, ?_, List.cons_ne_nil _ _, ?_⟩
          · exact Mem.node_right ▸ elems'
          · exact Mem.node_right ▸ heldC.level
          · exact Mem.node_right ▸ heldC.nextHeader
          · exact Mem.node_right ▸ heldC.next
          · exact Nat.le_of_succ_le few
      · rw [Mem.node_right, num]
        exact Nat.succ_pos _
      · rw [Mem.node_right, num]
        exact few
  -- whatever the branch, the level is linked as before with `c.behind` in the place of `c`
  intro dx dc elemsX levelX headerX nextX rest t node ctrl fresh items output
  have other : ∀ a, a ≠ x.addr → a ≠ c.addr → t.node a = m.node a := by
    intro a neX neC
    rw [node, Mem.node_other neX neC]
  refine goal t ?_ other (fun a neC => ?_) ?_ ⟨fresh, items, output⟩
  · have new : Linked t.node level (x :: (c.behind ++ back)) := by
      refine ⟨⟨?_, ?_, ?_, ?_, heldX.some, heldX.few⟩, ?_⟩
      · rw [node, Mem.node_left ne]
        exact elemsX
      · rw [node, Mem.node_left ne]
        exact levelX
      · rw [node, Mem.node_left ne]
        exact headerX
      · rw [node, Mem.node_left ne]
        exact nextX
      · have tail' : Linked t.node level back :=
          tail.congr fun d hd => other _ (apart' d hd).1 (apart' d hd).2
        rw [← node] at rest
        cases eq : c.behind with
        | nil => exact tail'
        | cons y ys =>
          have one : ys = [] := by
            unfold Cell.behind at eq
            split at eq
            · cases eq
            · exact (List.cons.inj eq).2.symm
          subst one
          exact ⟨rest y (eq ▸ List.mem_cons_self), tail'⟩
    have replaced : Linked t.node level (front ++ (x :: c.behind) ++ back) :=
      linked.replace (fun d hd => other _ (apart d hd).1 (apart d hd).2) rfl new
    simpa using replaced
  · rw [ctrl, Function.update_of_ne neC]
  · rw [ctrl, Function.update_self]
    exact idle_hoccUnlocked _

/-- Along a level under write locks, up to the node before a given one. -/
theorem walkLeft_ends {turns : Nat} {Q : Addr → Mem → Prop} (pos : 0 < fuel)
    (linked : Linked m.node level (d :: (mid ++ c :: back)))
    (nodup : ((d :: (mid ++ c :: back)).map Cell.addr).Nodup)
    (idle : ∀ y ∈ mid, Idle (m.ctrl y.addr)) (enough : mid.length < turns)
    (goal : ∀ front x t, d :: mid = front ++ [x] → m.Same t →
      (∀ a, a ≠ x.addr → a = d.addr ∨ Idle (m.ctrl a) → Idle (t.ctrl a)) → Q x.addr t) :
    (walkLeft fuel c.addr turns d.addr).Ends exec Q m := by
  induction mid generalizing d m turns with
  | nil =>
    obtain ⟨turns, rfl⟩ := Nat.exists_eq_add_one.mpr enough
    -- `d` is the left neighbour already
    have next : (m.node d.addr).next = c.addr := linked.1.next
    rw [walkLeft, Prog.ends_bind, ends_loadNext, next, if_neg (not_not.mpr rfl)]
    exact goal [] d m rfl (.refl m) fun a ne h => h.resolve_left ne
  | cons y mid ih =>
    obtain ⟨turns, rfl⟩ := Nat.exists_eq_add_one.mpr (Nat.lt_of_le_of_lt (Nat.zero_le _) enough)
    -- hand over hand: the next node is locked before `d` is given up
    have next : (m.node d.addr).next = y.addr := linked.1.next
    obtain ⟨notD, nodup'⟩ := List.nodup_cons.mp nodup
    obtain ⟨notY, -⟩ := List.nodup_cons.mp nodup'
    have neC : y.addr ≠ c.addr := fun eq => notY (by simp [eq])
    have neD : y.addr ≠ d.addr := fun eq => notD (by simp [eq])
    rw [walkLeft, Prog.ends_bind, ends_loadNext, next, if_pos neC, Prog.ends_bind,
      ends_writeLock pos (idle y List.mem_cons_self), Prog.ends_bind, ends_writeUnlock]
    apply ih
    · exact linked.2
    · exact nodup'
    · intro z hz
      have neY : z.addr ≠ y.addr := fun eq => notY <| by
        rw [← eq]
        exact List.mem_map_of_mem (List.mem_append_left _ hz)
      have neD' : z.addr ≠ d.addr := fun eq => notD <| by
        rw [← eq]
        exact List.mem_map_of_mem (List.mem_cons_of_mem _ (List.mem_append_left _ hz))
      simp only [Mem.setCtrl_ctrl, Function.update_of_ne neY, Function.update_of_ne neD']
      exact idle z (List.mem_cons_of_mem y hz)
    · exact Nat.lt_of_succ_lt_succ enough
    · intro front x t eq same frees
      refine goal (d :: front) x t (congrArg (d :: ·) eq)
        (((m.same_setCtrl _ _).trans (Mem.same_setCtrl _ _ _)).trans same) fun a neX h => ?_
      apply frees a neX
      by_cases isY : a = y.addr
      · exact .inl isY
      · right
        rw [Mem.setCtrl_ctrl]
        by_cases isD : a = d.addr
        · rw [isD, Function.update_self]
          exact idle_hoccUnlocked _
        · rw [Function.update_of_ne isD, Mem.setCtrl_ctrl, Function.update_of_ne isY]
          exact h.resolve_left isD

/-! ### From the level of the key down to the leaf -/

/-- The key has gone from the levels up to `level`, of which `m` had `lv`. -/
structure Gone (key : Key) (lv : Levels) (level : Nat) (held : Addr → Prop) (m t : Mem) : Prop where
  shrunk : ∀ l ≤ level, ∃ cells', Shrunk key (lv l) cells' ∧
    (bounds cells').head? = (bounds (lv l)).head? ∧ Linked t.node l cells'
  others : ∀ a, (∀ l ≤ level, a ∉ (lv l).map Cell.addr) → t.node a = m.node a
  idle : ∀ a, Idle (m.ctrl a) ∨ held a → Idle (t.ctrl a)
  fresh : t.fresh = m.fresh
  itemNext : t.itemNext = m.itemNext
  output : t.output = m.output

/-- The key has gone from one level, of which `m` had `lv`; no other node has changed. -/
structure GoneAt (key : Key) (lv : Levels) (level : Nat) (m t : Mem) : Prop where
  shrunk : ∃ cells', Shrunk key (lv level) cells' ∧
    (bounds cells').head? = (bounds (lv level)).head? ∧ Linked t.node level cells'
  others : ∀ a, a ∉ (lv level).map Cell.addr → t.node a = m.node a
  fresh : t.fresh = m.fresh
  itemNext : t.itemNext = m.itemNext
  output : t.output = m.output

/-- Locks may be taken and given back before and after it. -/
theorem GoneAt.between {m' t' : Mem} (here : GoneAt key lv level m t) (before : m'.Same m)
    (after : t.Same t') : GoneAt key lv level m' t' where
  shrunk := by
    rw [after.node]
    exact here.shrunk
  others a notIn := by rw [after.node, here.others a notIn, before.node]
  fresh := after.fresh.trans (here.fresh.trans before.fresh)
  itemNext := after.itemNext.trans (here.itemNext.trans before.itemNext)
  output := after.output.trans (here.output.trans before.output)

/-- The leaves are the last level. -/
theorem GoneAt.leaf {held : Addr → Prop} (here : GoneAt key lv 0 m t)
    (idle : ∀ a, Idle (m.ctrl a) ∨ held a → Idle (t.ctrl a)) : Gone key lv 0 held m t where
  shrunk l le := by
    obtain rfl := Nat.le_zero.mp le
    exact here.shrunk
  others a notIn := here.others a (notIn 0 (Nat.le_refl 0))
  idle := idle
  fresh := here.fresh
  itemNext := here.itemNext
  output := here.output

/-- The step for one level, and those for the levels below. -/
theorem GoneAt.step {held held' : Addr → Prop} {m' t' : Mem}
    (here : GoneAt key lv (level + 1) m m')
    (apart : ∀ x ∈ lv (level + 1), ∀ l ≤ level, x.addr ∉ (lv l).map Cell.addr)
    (idle : ∀ a, Idle (m.ctrl a) ∨ held a → Idle (m'.ctrl a) ∨ held' a)
    (rest : Gone key lv level held' m' t') : Gone key lv (level + 1) held m t' where
  shrunk l le := by
    rcases Nat.lt_succ_iff_lt_or_eq.mp (Nat.lt_succ_of_le le) with below | rfl
    · exact rest.shrunk l (Nat.le_of_lt_succ below)
    · obtain ⟨cells', shrunk, head, linked⟩ := here.shrunk
      refine ⟨cells', shrunk, head, linked.congr fun x hx => rest.others _ fun l le' => ?_⟩
      obtain ⟨y, hy, eq⟩ := List.mem_map.mp (shrunk.addrs x hx)
      exact eq ▸ apart y hy l le'
  others a notIn := by
    rw [rest.others a fun l le => notIn l (Nat.le_succ_of_le le),
      here.others a (notIn _ (Nat.le_refl _))]
  idle a was := rest.idle a (idle a was)
  fresh := rest.fresh.trans here.fresh
  itemNext := rest.itemNext.trans here.itemNext
  output := rest.output.trans here.output

/-- `c` is the node of a level that begins with the key, `d` one before it. -/
structure Beside (lv : Levels) (key : Key) (level : Nat) (d c : Cell) : Prop where
  between : ∃ front mid back, lv level = front ++ d :: (mid ++ c :: back)
  low : d.first < key
  isKey : c.first = key

theorem Beside.left (h : Beside lv key level d c) : d ∈ lv level := by
  obtain ⟨front, mid, back, cells⟩ := h.between
  rw [cells]
  simp

theorem Beside.right (h : Beside lv key level d c) : c ∈ lv level := by
  obtain ⟨front, mid, back, cells⟩ := h.between
  rw [cells]
  simp

theorem HasLevels.beside_ne (h : HasLevels list lv m) (lt : level < maxLevel)
    (beside : Beside lv key level d c) : c.addr ≠ d.addr := by
  intro eq
  have is := (h.stands level lt).linked.eq_of_addr beside.right beside.left eq
  exact Nat.ne_of_lt beside.low (is ▸ beside.isKey)

/-- Two elements of a level, the second with the key, lead down to such nodes. -/
theorem HasLevels.beside (h : HasLevels list lv m) (lt : level + 1 < maxLevel) {x : Key × Nat}
    (memX : x ∈ flat (lv (level + 1))) (memE : e ∈ flat (lv (level + 1))) (before : x.1 < e.1) :
    ∃ d c, Beside lv e.1 level d c ∧ d.addr = x.2 ∧ c.addr = e.2 := by
  obtain ⟨c, hc, firstC, addrC⟩ := h.child lt memE
  obtain ⟨d, hd, firstD, addrD⟩ := h.child lt memX
  have stands := h.stands level (Nat.lt_of_succ_lt lt)
  rw [← firstD] at before
  have between := exists_between stands.sorted stands.linked.some hd hc (firstC ▸ before)
  exact ⟨d, c, ⟨between, before, firstC⟩, addrD, addrC⟩

/-- The levels up to `level` are as in `m₀`, and their nodes free but for those in `held`. -/
structure Lower (lv : Levels) (m₀ : Mem) (level : Nat) (held : Addr → Prop) (m : Mem) : Prop where
  nodes : ∀ l ≤ level, ∀ x ∈ lv l, m.node x.addr = m₀.node x.addr
  idle : ∀ l ≤ level, ∀ x ∈ lv l, ¬ held x.addr → Idle (m.ctrl x.addr)

/-- The two nodes that `deleteBelow` gets, and holds. -/
def oneOf (d c : Cell) (a : Addr) : Prop := a = d.addr ∨ a = c.addr

/-- On one level the key goes from the node behind `x`. -/
theorem HasLevels.unlinkFirst_ends (h : HasLevels list lv m₀) (lt : level < maxLevel) {x : Cell}
    {Q : Unit → Mem → Prop} (nodes : ∀ y ∈ lv level, m.node y.addr = m₀.node y.addr)
    (cells : lv level = front ++ x :: c :: back) (isKey : c.first = key)
    (goal : ∀ t, GoneAt key lv level m t → (∀ a, a ≠ c.addr → t.ctrl a = m.ctrl a) →
      Idle (t.ctrl c.addr) → Q () t) :
    (unlinkFirst x.addr c.addr).Ends exec Q m := by
  have stands := h.stands level lt
  have linked : Linked m.node level (lv level) := stands.linked.congr nodes
  have nodup := linked.nodup stands.sorted
  have hx : x ∈ lv level := by
    rw [cells]
    simp
  have hc : c ∈ lv level := by
    rw [cells]
    simp
  obtain ⟨slot, v, entries⟩ := exists_cons (linked.some c hc)
  rw [show firstKey c.entries = key from isKey] at entries
  rw [cells] at linked nodup
  apply Bskiplist.unlinkFirst_ends linked nodup entries
  intro t linked' others ctrl idle kept
  refine goal t ⟨⟨front ++ x :: (c.behind ++ back), ?_, ?_, linked'⟩, fun a notIn => ?_,
    kept.1, kept.2.1, kept.2.2⟩ ctrl idle
  · have shrunk : Shrunk key (front ++ [x] ++ c :: back) (front ++ [x] ++ (c.behind ++ back)) :=
      shrunk_behind entries
    rw [cells]
    simpa using shrunk
  · rw [cells]
    exact head?_bounds front rfl
  · exact others a (fun eq => notIn (eq ▸ List.mem_map_of_mem hx))
      fun eq => notIn (eq ▸ List.mem_map_of_mem hc)

/-- The walk along a level from `d` to the node before `c`. -/
theorem HasLevels.walkLeft_ends {β : Type} {next : Addr → Prog β} {Q : β → Mem → Prop}
    (h : HasLevels list lv m₀) (fueled : Fueled fuel lv) (lt : level < maxLevel)
    (lower : Lower lv m₀ level (oneOf d c) m) (beside : Beside lv key level d c)
    (goal : ∀ front x back t, lv level = front ++ x :: c :: back → m.Same t →
      (∀ a, a ≠ x.addr → a = d.addr ∨ Idle (m.ctrl a) → Idle (t.ctrl a)) →
      (next x.addr).Ends exec Q t) :
    (walkLeft fuel c.addr fuel d.addr >>= next).Ends exec Q m := by
  have stands := h.stands level lt
  have linked : Linked m.node level (lv level) :=
    stands.linked.congr (lower.nodes level (Nat.le_refl level))
  have nodup := linked.nodup stands.sorted
  have few := fueled.nodes level lt
  have pos : 0 < fuel := Nat.lt_of_le_of_lt (Nat.zero_le _) fueled.levels
  obtain ⟨front, mid, back, cells⟩ := beside.between
  rw [cells] at linked nodup few
  simp only [List.length_append, List.length_cons] at few
  rw [List.map_append] at nodup
  have nodup' := (List.nodup_append.mp nodup).2.1
  rw [Prog.ends_bind]
  apply Bskiplist.walkLeft_ends pos linked.suffix nodup'
  · -- the nodes between `d` and `c` are free
    intro y hy
    obtain ⟨notD, rest⟩ := List.nodup_cons.mp nodup'
    apply lower.idle level (Nat.le_refl level) y
    · rw [cells]
      simp [hy]
    · rintro (isD | isC)
      · exact notD (isD ▸ List.mem_map_of_mem (List.mem_append_left _ hy))
      · rw [List.map_append] at rest
        exact (List.nodup_append.mp rest).2.2 _ (List.mem_map_of_mem hy) _ List.mem_cons_self isC
  · omega
  · intro front' x t eq same frees
    refine goal (front ++ front') x back t ?_ same frees
    have whole : front ++ d :: (mid ++ c :: back) = front ++ (d :: mid) ++ c :: back := by simp
    rw [cells, whole, eq]
    simp

/-- After the walk from `d` to `x` and the unlinking of `c`, only `x` is still locked. -/
theorem idle_of_unlinked {t₁ t₂ : Mem} {x : Cell}
    (frees : ∀ a, a ≠ x.addr → a = d.addr ∨ Idle (m.ctrl a) → Idle (t₁.ctrl a))
    (ctrl : ∀ a, a ≠ c.addr → t₂.ctrl a = t₁.ctrl a) (free : Idle (t₂.ctrl c.addr)) {a : Addr}
    (neX : a ≠ x.addr) (was : Idle (m.ctrl a) ∨ oneOf d c a) : Idle (t₂.ctrl a) := by
  by_cases isC : a = c.addr
  · exact isC ▸ free
  · rw [ctrl a isC]
    refine frees a neX ?_
    rcases was with was | is | is
    · exact .inr was
    · exact .inl is
    · exact absurd is isC

/-- The last element of a node and the first one of the node behind it lead to the next two
nodes. -/
theorem HasLevels.children (h : HasLevels list lv m₀) (lt : level + 1 < maxLevel) {x : Cell}
    (nodes : ∀ y ∈ lv (level + 1), m.node y.addr = m₀.node y.addr)
    (cells : lv (level + 1) = front ++ x :: c :: back) (isKey : c.first = key) :
    (m.node c.addr).keys 0 = key ∧ (m.node x.addr).nextHeader = key ∧
      ∃ d' c', Beside lv key level d' c' ∧
        (m.node x.addr).slots ((m.node x.addr).numElts - 1) = d'.addr ∧
        (m.node c.addr).slots 0 = c'.addr := by
  have linked : Linked m.node (level + 1) (lv (level + 1)) :=
    (h.stands _ lt).linked.congr nodes
  have sorted := (h.stands _ lt).sorted
  have hx : x ∈ lv (level + 1) := by
    rw [cells]
    simp
  have hc : c ∈ lv (level + 1) := by
    rw [cells]
    simp
  obtain ⟨slot, v, entries⟩ := exists_cons (linked.some c hc)
  rw [show firstKey c.entries = key from isKey] at entries
  obtain ⟨u, e, entriesX⟩ := (List.eq_nil_or_concat x.entries).resolve_left (linked.some x hx)
  rw [List.concat_eq_append] at entriesX
  have heldX : x.Held m.node (level + 1) c.bound := (cells ▸ linked).held
  have elemC := (cells ▸ linked).suffix.2.1.elems
  have elemX := heldX.elems
  rw [entries] at elemC
  rw [entriesX] at elemX
  -- the last entry of the left neighbour is before the key
  have before : e.1 < key := by
    rw [cells, flat_append, flat_cons, flat_cons, entriesX, entries] at sorted
    have behind := (List.pairwise_append.mp sorted).2.1
    exact (List.pairwise_append.mp behind).2.2 e (by simp) (key, slot) (by simp)
  have memX : e ∈ flat (lv (level + 1)) := mem_flat.mpr ⟨x, hx, by simp [entriesX]⟩
  have memC : (key, slot) ∈ flat (lv (level + 1)) := mem_flat.mpr ⟨c, hc, by simp [entries]⟩
  -- so the nodes below these two entries stand beside the key as well
  obtain ⟨d', c', beside, addrD, addrC⟩ := h.beside lt memX memC before
  refine ⟨elemC.keys 0 (Nat.succ_pos _), heldX.nextHeader.trans isKey, d', c', beside, ?_, ?_⟩
  · rw [elemX.numElts, List.length_append, List.length_singleton, Nat.add_sub_cancel,
      elemX.slots u.length (by simp), addrD]
    simp
  · rw [elemC.slots 0 (Nat.succ_pos _), addrC]
    rfl

/-- Two free nodes get locked, one after the other. -/
theorem lockBoth_ends {β : Type} {next : Prog β} {Q : β → Mem → Prop} {a b : Addr}
    (pos : 0 < fuel) (ne : b ≠ a) (idleA : Idle (m.ctrl a)) (idleB : Idle (m.ctrl b))
    (goal : ∀ t, m.Same t → (∀ x, ¬ (x = a ∨ x = b) → t.ctrl x = m.ctrl x) →
      next.Ends exec Q t) :
    (writeLock fuel a >>= fun _ => writeLockEvicting fuel b >>= fun _ => next).Ends exec Q m := by
  rw [Prog.ends_bind, ends_writeLock pos idleA, Prog.ends_bind, ends_writeLockEvicting pos]
  · apply goal
    · exact (m.same_setCtrl _ _).trans (Mem.same_setCtrl _ _ _)
    · intro x other
      rw [not_or] at other
      rw [Mem.setCtrl_ctrl, Function.update_of_ne other.2, Mem.setCtrl_ctrl,
        Function.update_of_ne other.1]
  · rw [Mem.setCtrl_ctrl, Function.update_of_ne ne]
    exact idleB

/-- The last step of the loop, among the leaves. -/
theorem HasLevels.deleteBelow_leaf_ends (h : HasLevels list lv m₀) (fueled : Fueled fuel lv)
    (lt : 0 < maxLevel) (lower : Lower lv m₀ 0 (oneOf d c) m) (beside : Beside lv key 0 d c) :
    (deleteBelow fuel key 0 d.addr c.addr).Ends exec (fun _ t => Gone key lv 0 (oneOf d c) m t)
      m := by
  have here := lower.nodes 0 (Nat.le_refl 0)
  have linked : Linked m.node 0 (lv 0) := (h.stands 0 lt).linked.congr here
  obtain ⟨after, heldD⟩ := linked.held_of_mem beside.left
  obtain ⟨after', heldC⟩ := linked.held_of_mem beside.right
  rw [deleteBelow, Prog.ends_bind, ends_loadLevel, Prog.ends_bind, ends_loadLevel, Prog.ends_bind,
    Prog.ends_assert]
  refine ⟨⟨heldC.level, heldD.level⟩, ?_⟩
  apply h.walkLeft_ends fueled lt lower beside
  intro front x back t₁ cells same frees
  rw [Prog.ends_bind]
  apply h.unlinkFirst_ends (m := t₁) lt (fun y hy => ?_) cells beside.isKey
  · intro t₂ gone ctrl free
    rw [ends_writeUnlock]
    refine (gone.between same (Mem.same_setCtrl _ _ _)).leaf fun a was => ?_
    rw [Mem.setCtrl_ctrl, Function.update_apply]
    split
    · exact idle_hoccUnlocked _
    · next neX => exact idle_of_unlinked frees ctrl free neX was
  · rw [same.node]
    exact here y hy

/-- The loop of the deletion. On each level it walks to the node before `c`, unlinks the first
element of `c` and locks the two nodes where the loop goes on. -/
theorem HasLevels.deleteBelow_ends (h : HasLevels list lv m₀) (fueled : Fueled fuel lv)
    (lt : level < maxLevel) (lower : Lower lv m₀ level (oneOf d c) m)
    (beside : Beside lv key level d c) :
    (deleteBelow fuel key level d.addr c.addr).Ends exec
      (fun _ t => Gone key lv level (oneOf d c) m t) m := by
  have pos : 0 < fuel := Nat.lt_of_le_of_lt (Nat.zero_le _) fueled.levels
  induction level generalizing m d c with
  | zero => exact h.deleteBelow_leaf_ends fueled lt lower beside
  | succ level ih =>
    have lt' : level < maxLevel := Nat.lt_of_succ_lt lt
    rw [deleteBelow]
    apply h.walkLeft_ends fueled lt lower beside
    intro front x back t₁ cells same frees
    have hx : x ∈ lv (level + 1) := by
      rw [cells]
      simp
    have nodes : ∀ y ∈ lv (level + 1), t₁.node y.addr = m₀.node y.addr := by
      rw [same.node]
      exact lower.nodes _ (Nat.le_refl _)
    -- the assertions: the node begins with the key, and its left neighbour is bounded by it
    obtain ⟨keyC, header, d', c', beside', slotX, slotC⟩ :=
      h.children lt nodes cells beside.isKey
    rw [Prog.ends_bind, ends_loadKey, keyC, Prog.ends_bind, Prog.ends_assert]
    refine ⟨rfl, ?_⟩
    rw [Prog.ends_bind, ends_loadNextHeader, Prog.ends_bind, Prog.ends_assert]
    refine ⟨header, ?_⟩
    rw [Prog.ends_bind, ends_loadSlot, slotC, Prog.ends_bind, ends_loadNumElts, Prog.ends_bind,
      ends_loadSlot, slotX, Prog.ends_bind]
    -- the key leaves this level
    apply h.unlinkFirst_ends (m := t₁) lt nodes cells beside.isKey
    intro t₂ gone ctrl free
    -- the levels below have none of the nodes that were locked
    have apart {l : Nat} (le : l ≤ level) {y z : Cell} (hy : y ∈ lv l) (hz : z ∈ lv (level + 1)) :
        y.addr ≠ z.addr := h.addr_ne (by omega) lt (by omega) hy hz
    have below : ∀ l ≤ level, ∀ y ∈ lv l,
        t₂.node y.addr = m₀.node y.addr ∧ Idle (t₂.ctrl y.addr) := by
      intro l le y hy
      have notIn : y.addr ∉ (lv (level + 1)).map Cell.addr := by
        intro mem
        obtain ⟨z, hz, eq⟩ := List.mem_map.mp mem
        exact apart le hy hz eq.symm
      refine ⟨?_, idle_of_unlinked frees ctrl free (apart le hy hx) (.inl ?_)⟩
      · rw [gone.others _ notIn, same.node]
        exact lower.nodes l (Nat.le_succ_of_le le) y hy
      · refine lower.idle l (Nat.le_succ_of_le le) y hy ?_
        rintro (isD | isC)
        · exact apart le hy beside.left isD
        · exact apart le hy beside.right isC
    -- the two nodes of the next level are locked before those of this one are free
    have last := Nat.le_refl level
    apply lockBoth_ends pos (h.beside_ne lt' beside') (below level last d' beside'.left).2
      (below level last c' beside'.right).2
    intro t₃ same₃ ctrl₃
    rw [Prog.ends_bind, ends_writeUnlock]
    have free₄ : ∀ a, ¬ oneOf d' c' a → (a ≠ x.addr → Idle (t₂.ctrl a)) →
        Idle ((t₃.setCtrl x.addr (hoccUnlocked (t₃.ctrl x.addr))).ctrl a) := by
      intro a other was
      rw [Mem.setCtrl_ctrl, Function.update_apply]
      split
      · exact idle_hoccUnlocked _
      · next neX =>
        rw [ctrl₃ a other]
        exact was neX
    have rest := ih lt' (m := t₃.setCtrl x.addr (hoccUnlocked (t₃.ctrl x.addr)))
      ⟨fun l le y hy => by rw [Mem.setCtrl_node, same₃.node, (below l le y hy).1],
        fun l le y hy other => free₄ _ other fun _ => (below l le y hy).2⟩ beside'
    refine rest.mono fun _ t' done =>
      (gone.between same (same₃.trans (Mem.same_setCtrl _ _ _))).step ?_ (fun a was => ?_) done
    · intro y hy l le mem
      obtain ⟨z, hz, eq⟩ := List.mem_map.mp mem
      exact apart le hz hy eq
    · by_cases isNext : oneOf d' c' a
      · exact .inr isNext
      · exact .inl (free₄ a isNext fun neX => idle_of_unlinked frees ctrl free neX was)

/-- The levels that the key has gone from make a well formed list. -/
theorem HasLevels.deleted (h : HasLevels list lv m) (min : keyMin < key)
    (shrunk : ∀ l ≤ levelForKey key, ∃ cells', Shrunk key (lv l) cells' ∧
      (bounds cells').head? = (bounds (lv l)).head? ∧ Linked t.node l cells')
    (others : ∀ l, levelForKey key < l → l < maxLevel → ∀ c ∈ lv l, t.node c.addr = m.node c.addr)
    (idle : ∀ l < maxLevel, ∀ c ∈ lv l, Idle (t.ctrl c.addr)) (fresh : t.fresh = m.fresh) :
    ∃ lv', HasLevels list lv' t ∧ Shrunk key (lv 0) (lv' 0) := by
  choose! f isShrunk head linked using shrunk
  have above : ∀ l, levelForKey key < l → (if l ≤ levelForKey key then f l else lv l) = lv l :=
    fun l lt => if_neg (Nat.not_le.mpr lt)
  have low : ∀ l ≤ levelForKey key, (if l ≤ levelForKey key then f l else lv l) = f l :=
    fun l le => if_pos le
  refine ⟨fun l => if l ≤ levelForKey key then f l else lv l, ⟨?_, fun l lt => ?_⟩, ?_⟩
  · apply h.shape.shrunk (fun l lt => (h.stands l lt).sorted) min above
    · intro l le
      rw [low l le]
      exact isShrunk l le
    · intro l le
      rw [low l le]
      exact head l le
  · have stands := h.stands l lt
    by_cases le : l ≤ levelForKey key
    · rw [low l le]
      have place : ∀ c ∈ f l, (c.addr ≠ null ∧ c.addr < t.fresh) ∧ Idle (t.ctrl c.addr) := by
        intro c hc
        obtain ⟨d, hd, eq⟩ := List.mem_map.mp ((isShrunk l le).addrs c hc)
        rw [← eq, fresh]
        exact ⟨stands.known d hd, idle l lt d hd⟩
      exact ⟨linked l le, (isShrunk l le).increasing stands.sorted, fun c hc => (place c hc).1,
        fun c hc => (place c hc).2⟩
    · rw [above l (Nat.lt_of_not_le le)]
      exact ⟨stands.linked.congr (others l (Nat.lt_of_not_le le) lt), stands.sorted,
        fun c hc => fresh ▸ stands.known c hc, idle l lt⟩
  · dsimp only
    rw [low 0 (Nat.zero_le _)]
    exact isShrunk 0 (Nat.zero_le _)

/-! ### The level of the key -/

theorem deleteWalk_found {turns rank : Nat} {prev curr : Addr}
    {Q : Addr × Addr × Nat × Bool → Mem → Prop} (pos : 0 < turns) :
    (deleteWalk fuel key turns prev curr rank true).Ends exec Q m ↔
      Q (prev, curr, rank, true) m := by
  obtain ⟨turns, rfl⟩ := Nat.exists_eq_add_one.mpr pos
  rw [deleteWalk, Prog.ends_bind, ends_loadNextHeader]
  rfl

/-- The walk along the level of the key, from a node that does not have it. -/
theorem deleteWalk_ends {turns rank : Nat} {prev : Addr} {Q : Addr × Addr × Nat × Bool → Mem → Prop}
    (pos : 0 < fuel) (linked : Linked m.node level (d :: rest))
    (sorted : Increasing (flat (d :: rest))) (nodup : ((d :: rest).map Cell.addr).Nodup)
    (idle : ∀ c ∈ rest, Idle (m.ctrl c.addr))
    (low : d.first ≤ key) (max : key < keyMax) (enough : rest.length + 1 < turns)
    (split : Split key d.entries u e v) (other : e.1 ≠ key)
    (absent : ∀ prev front x back u e v rank t, Cut key (d :: rest) front x back →
      Split key x.entries u e v → e.1 ≠ key → m.Same t →
      (∀ a, a ≠ x.addr → a = d.addr ∨ Idle (m.ctrl a) → Idle (t.ctrl a)) →
      Q (prev, x.addr, rank, false) t)
    (found : ∀ front x y back u e v t, d :: rest = front ++ x :: y :: back →
      Split key y.entries u e v → e.1 = key → x.first ≤ key → m.Same t →
      (∀ a, a ≠ x.addr → a ≠ y.addr → a = d.addr ∨ Idle (m.ctrl a) → Idle (t.ctrl a)) →
      Q (x.addr, y.addr, u.length, true) t) :
    (deleteWalk fuel key turns prev d.addr rank false).Ends exec Q m := by
  induction rest generalizing d m turns prev rank u e v with
  | nil =>
    obtain ⟨turns, rfl⟩ := Nat.exists_eq_add_one.mpr (Nat.lt_of_succ_lt enough)
    have header : (m.node d.addr).nextHeader = keyMax := linked.1.nextHeader
    rw [deleteWalk, Prog.ends_bind, ends_loadNextHeader, header]
    simp only [Bool.not_false, Bool.true_and, decide_eq_true_eq, if_neg (Nat.not_le.mpr max)]
    exact absent prev [] d [] u e v rank m ⟨rfl, low, max⟩ split other (.refl m)
      fun a ne h => h.resolve_left ne
  | cons c rest ih =>
    obtain ⟨turns, rfl⟩ := Nat.exists_eq_add_one.mpr (Nat.lt_of_le_of_lt (Nat.zero_le _) enough)
    have header : (m.node d.addr).nextHeader = c.first := linked.1.nextHeader
    have next : (m.node d.addr).next = c.addr := linked.1.next
    obtain ⟨notD, nodup'⟩ := List.nodup_cons.mp nodup
    obtain ⟨notC, -⟩ := List.nodup_cons.mp nodup'
    have ne : c.addr ≠ d.addr := fun eq => notD (by simp [eq])
    rw [deleteWalk, Prog.ends_bind, ends_loadNextHeader, header]
    simp only [Bool.not_false, Bool.true_and, decide_eq_true_eq]
    by_cases on : c.first ≤ key
    · have held := linked.2.1
      have elems : ((m.setCtrl c.addr (m.ctrl c.addr + hoccWriterBit)).node c.addr).Elems
          c.entries :=
        held.elems
      have sorted' : Increasing c.entries :=
        sorted.entries (List.mem_cons_of_mem d List.mem_cons_self)
      rw [if_pos on, Prog.ends_bind, ends_loadNext, next, Prog.ends_bind,
        ends_writeLock pos (idle c List.mem_cons_self), Prog.ends_bind, ends_loadNumElts,
        elems.numElts, Prog.ends_bind]
      apply elems.findRankLinear_ends sorted' held.some on
      intro u' e' v' split'
      rw [Prog.ends_bind, ends_loadKey, (elems.at_split split').1]
      by_cases isKey : e'.1 = key
      · rw [beq_iff_eq.mpr isKey]
        simp only [Bool.not_true, Bool.false_eq_true, if_false]
        rw [deleteWalk_found (Nat.lt_of_le_of_lt (Nat.zero_le _) (Nat.lt_of_succ_lt_succ enough))]
        refine found [] d c rest u' e' v' _ rfl split' isKey low (m.same_setCtrl _ _)
          fun a neD neC was => ?_
        rw [Mem.setCtrl_ctrl, Function.update_of_ne neC]
        exact was.resolve_left neD
      · rw [beq_eq_false_iff_ne.mpr isKey]
        simp only [Bool.not_false, if_true]
        rw [Prog.ends_bind, ends_writeUnlock]
        have kept : m.Same _ := (m.same_setCtrl c.addr (m.ctrl c.addr + hoccWriterBit)).trans
          (Mem.same_setCtrl _ d.addr
            (hoccUnlocked ((m.setCtrl c.addr (m.ctrl c.addr + hoccWriterBit)).ctrl d.addr)))
        have free : ∀ a, a = d.addr ∨ Idle (m.ctrl a) → a = c.addr ∨
            Idle (((m.setCtrl c.addr (m.ctrl c.addr + hoccWriterBit)).setCtrl d.addr
              (hoccUnlocked
                ((m.setCtrl c.addr (m.ctrl c.addr + hoccWriterBit)).ctrl d.addr))).ctrl a) := by
          intro a was
          by_cases isC : a = c.addr
          · exact .inl isC
          · right
            rw [Mem.setCtrl_ctrl]
            by_cases isD : a = d.addr
            · rw [isD, Function.update_self]
              exact idle_hoccUnlocked _
            · rw [Function.update_of_ne isD, Mem.setCtrl_ctrl, Function.update_of_ne isC]
              exact was.resolve_left isD
        apply ih
        · exact linked.2
        · exact sorted.tail
        · exact nodup'
        · intro b hb
          have neC : b.addr ≠ c.addr := fun eq => notC (eq ▸ List.mem_map_of_mem hb)
          have neD : b.addr ≠ d.addr := fun eq =>
            notD (eq ▸ List.mem_map_of_mem (List.mem_cons_of_mem c hb))
          simp only [Mem.setCtrl_ctrl, Function.update_of_ne neC, Function.update_of_ne neD]
          exact idle b (List.mem_cons_of_mem c hb)
        · exact on
        · exact Nat.lt_of_succ_lt_succ enough
        · exact split'
        · exact isKey
        · intro prev' front x back u e v rank t cut split other same frees
          refine absent prev' (d :: front) x back u e v rank t
            ⟨congrArg (d :: ·) cut.cells, cut.low, cut.high⟩ split other (kept.trans same)
            fun a neX was => frees a neX (free a was)
        · intro front x y back u e v t eq split isKey low same frees
          exact found (d :: front) x y back u e v t (congrArg (d :: ·) eq) split isKey low
            (kept.trans same) fun a neX neY was => frees a neX neY (free a was)
    · rw [if_neg on]
      exact absent prev [] d (c :: rest) u e v rank m ⟨rfl, low, Nat.lt_of_not_le on⟩ split other
        (.refl m) fun a ne h => h.resolve_left ne

/-! ### What the deletion does with the key it has found -/

/-- When the key has gone from all its levels, the list is well formed without it. -/
theorem HasLevels.gone (h : HasLevels list lv m₀) (min : keyMin < key) {held : Addr → Prop}
    (same : m₀.Same m) (idle : ∀ a, a ≠ null → Idle (m₀.ctrl a) → Idle (m.ctrl a) ∨ held a)
    (gone : Gone key lv (levelForKey key) held m t) :
    ∃ lv', HasLevels list lv' t ∧ Shrunk key (lv 0) (lv' 0) ∧ t.itemNext = m₀.itemNext ∧
      t.output = m₀.output := by
  have result := h.deleted (t := t) min gone.shrunk (fun l gt lt' c hc => ?_)
    (fun l lt' c hc => gone.idle _ ?_) (gone.fresh.trans same.fresh)
  · obtain ⟨lv', has, shrunk⟩ := result
    exact ⟨lv', has, shrunk, gone.itemNext.trans same.itemNext, gone.output.trans same.output⟩
  · rw [gone.others, same.node]
    intro l' le mem
    obtain ⟨d, hd, eq⟩ := List.mem_map.mp mem
    exact h.addr_ne lt' (by omega) (by omega) hc hd eq.symm
  · have stands := h.stands l lt'
    exact idle _ (stands.known c hc).1 (stands.idle c hc)

/-- The deletion has found the key in `y`, on the level of the key, and holds `y` and `prev`. -/
structure Found (lv : Levels) (m₀ : Mem) (key : Key) (prev : Addr) (y : Cell)
    (u : List (Key × Nat)) (e : Key × Nat) (v : List (Key × Nat)) (m : Mem) : Prop where
  same : m₀.Same m
  mem : y ∈ lv (levelForKey key)
  split : Split key y.entries u e v
  isKey : e.1 = key
  idle : ∀ a, a ≠ prev → a ≠ y.addr → Idle (m₀.ctrl a) → Idle (m.ctrl a)
  left : prev = null ∧ u ≠ [] ∨
    ∃ front x back, lv (levelForKey key) = front ++ x :: y :: back ∧ x.addr = prev

variable {prev : Addr} {y : Cell} {Q : Option Nat → Mem → Prop}

theorem Found.idle_or (found : Found lv m₀ key prev y u e v m) {a : Addr} (some : a ≠ null)
    (was : Idle (m₀.ctrl a)) : Idle (m.ctrl a) ∨ a = prev ∧ prev ≠ null ∨ a = y.addr := by
  by_cases isY : a = y.addr
  · exact .inr (.inr isY)
  · by_cases isPrev : a = prev
    · exact .inr (.inl ⟨isPrev, isPrev ▸ some⟩)
    · exact .inl (found.idle a isPrev isY was)

/-- The first key of a node: the loop takes it from all its levels. -/
theorem HasLevels.deleteFirstKey_ends (h : HasLevels list lv m₀) (fueled : Fueled fuel lv)
    (min : keyMin < key) (found : Found lv m₀ key prev y [] e v m)
    (goal : ∀ t lv', HasLevels list lv' t → Shrunk key (lv 0) (lv' 0) →
      t.itemNext = m₀.itemNext → t.output = m₀.output → Q (some 1) t) :
    Prog.Ends exec (do
      Prog.assert (prev ≠ null)
      deleteBelow fuel key (← loadLevel y.addr) prev y.addr
      return some 1) Q m := by
  have lt := levelForKey_lt key
  have stands := h.stands _ lt
  obtain ⟨front, x, back, cells, rfl⟩ := found.left.resolve_left fun never => never.2 rfl
  have hx : x ∈ lv (levelForKey key) := by
    rw [cells]
    simp
  have entries := found.split.entries
  rw [List.nil_append] at entries
  have begins : y.first = key := by
    rw [Cell.first, entries, ← found.isKey]
    rfl
  have before : x.first < key := by
    obtain ⟨slot, mem⟩ := firstKey_mem (stands.linked.some x hx)
    have sorted := stands.sorted
    rw [cells, flat_append] at sorted
    have behind := (List.pairwise_append.mp sorted).2.1
    rw [flat_cons, flat_cons, entries] at behind
    exact found.isKey ▸ (List.pairwise_append.mp behind).2.2 _ mem e (by simp)
  obtain ⟨after, held⟩ := stands.linked.held_of_mem found.mem
  rw [Prog.ends_bind, Prog.ends_assert]
  refine ⟨(stands.known x hx).1, ?_⟩
  rw [Prog.ends_bind, ends_loadLevel, found.same.node, held.level, Prog.ends_bind]
  have lower : Lower lv m₀ (levelForKey key) (oneOf x y) m := by
    refine ⟨fun l le z hz => by rw [found.same.node], fun l le z hz other => ?_⟩
    rw [oneOf, not_or] at other
    exact found.idle _ other.1 other.2 ((h.stands l (by omega)).idle z hz)
  apply (h.deleteBelow_ends fueled lt lower ⟨⟨front, [], back, cells⟩, before, begins⟩).mono
  intro _ t gone
  have idle : ∀ a, a ≠ null → Idle (m₀.ctrl a) → Idle (m.ctrl a) ∨ oneOf x y a := by
    intro a some was
    exact (found.idle_or some was).imp_right fun is => is.imp_left And.left
  obtain ⟨lv', has, shrunk, items, output⟩ := h.gone min found.same idle gone
  exact goal t lv' has shrunk items output

/-- The node with the key, as the deletion sees it. -/
theorem HasLevels.found_elems (h : HasLevels list lv m₀) (found : Found lv m₀ key prev y u e v m) :
    (m.node y.addr).level = levelForKey key ∧ (m.node y.addr).Elems (u ++ e :: v) ∧
      u.length < (m.node y.addr).numElts ∧ (m.node y.addr).numElts ≤ capacity := by
  obtain ⟨after, held⟩ := (h.stands _ (levelForKey_lt key)).linked.held_of_mem found.mem
  rw [found.same.node]
  have elems := held.elems
  have few := held.few
  rw [found.split.entries] at elems few
  refine ⟨held.level, elems, ?_, ?_⟩
  · rw [elems.numElts, List.length_append, List.length_cons]
    omega
  · rw [elems.numElts]
    exact few

/-- From a node that has other keys before it, the key goes with its element. -/
theorem HasLevels.deleteSlot_gone (h : HasLevels list lv m₀)
    (found : Found lv m₀ key prev y u e v m) (first : u ≠ []) :
    GoneAt key lv (levelForKey key) m
      (m.setNode y.addr ((m.node y.addr).deleteSlot u.length)) := by
  have stands := h.stands _ (levelForKey_lt key)
  have split := found.split.entries
  obtain ⟨front, back, cells⟩ := List.append_of_mem found.mem
  have linked : Linked m.node (levelForKey key) (front ++ y :: back) := by
    rw [found.same.node, ← cells]
    exact stands.linked
  have held := linked.held
  have few := held.few
  rw [split, List.length_append, List.length_cons] at few
  have nodup := linked.nodup (cells ▸ stands.sorted)
  rw [List.map_append, List.map_cons, List.nodup_middle, List.nodup_cons,
    ← List.map_append] at nodup
  -- the first key of the node stays, and with it the bound of its left neighbour
  have sameBound : (Cell.mk y.addr (u ++ v)).bound = y.bound := by
    rw [Cell.bound, Cell.bound, Cell.first, Cell.first, split, firstKey_append first,
      firstKey_append first]
  generalize eqM : m.setNode y.addr ((m.node y.addr).deleteSlot u.length) = m₁
  have after : m₁.node y.addr = (m.node y.addr).deleteSlot u.length := by
    rw [← eqM, Mem.setNode_node, Function.update_self]
  have other : ∀ a, a ≠ y.addr → m₁.node a = m.node a := by
    intro a ne
    rw [← eqM, Mem.setNode_node, Function.update_of_ne ne]
  refine ⟨⟨front ++ ⟨y.addr, u ++ v⟩ :: back, ?_, ?_, ?_⟩, fun a notIn => other a fun eq => ?_,
    eqM ▸ rfl, eqM ▸ rfl, eqM ▸ rfl⟩
  · rw [cells]
    have entries : y.entries = u ++ (key, e.2) :: v := by rw [split, ← found.isKey]
    exact shrunk_delete entries first
  · rw [cells]
    apply head?_bounds
    rw [bounds_cons, bounds_cons, sameBound]
  · apply linked.one sameBound
    · intro d hd
      exact other _ fun eq => nodup.1 (eq ▸ List.mem_map_of_mem hd)
    · refine ⟨after ▸ (h.found_elems found).2.1.deleteSlot, after ▸ held.level,
        after ▸ held.nextHeader, after ▸ held.next, by simp [first], ?_⟩
      rw [List.length_append]
      omega
  · exact notIn (eq ▸ List.mem_map_of_mem found.mem)

/-- A key of the leaves only. -/
theorem HasLevels.deleteLeafSlot_ends (h : HasLevels list lv m₀) (min : keyMin < key)
    (found : Found lv m₀ key prev y u e v m) (first : u ≠ []) (zero : levelForKey key = 0)
    (goal : ∀ t lv', HasLevels list lv' t → Shrunk key (lv 0) (lv' 0) →
      t.itemNext = m₀.itemNext → t.output = m₀.output → Q (some 1) t) :
    Prog.Ends exec (do
      deleteLeafSlot y.addr u.length
      if prev ≠ null then writeUnlock prev
      writeUnlock y.addr
      return some 1) Q m := by
  obtain ⟨-, -, lo, hi⟩ := h.found_elems found
  have gone := h.deleteSlot_gone found first
  rw [zero] at gone
  change Prog.Ends exec (deleteSlot y.addr u.length >>= _) _ _
  rw [Prog.ends_bind, ends_deleteSlot lo hi]
  apply ends_unlockParent
  intro t same unlocked
  rw [Prog.ends_bind, ends_writeUnlock]
  have done : Gone key lv (levelForKey key) (fun a => a = prev ∧ prev ≠ null ∨ a = y.addr) m
      (t.setCtrl y.addr (hoccUnlocked (t.ctrl y.addr))) := by
    rw [zero]
    refine (gone.between (.refl m) (same.trans (Mem.same_setCtrl _ _ _))).leaf fun a was => ?_
    rw [Mem.setCtrl_ctrl, Function.update_apply]
    split
    · exact idle_hoccUnlocked _
    · next ne =>
      apply unlocked
      rw [Mem.setNode_ctrl]
      exact was.imp_right fun is => is.resolve_right ne
  obtain ⟨lv', has, shrunk, items, output⟩ :=
    h.gone min found.same (fun a some was => found.idle_or some was) done
  exact goal _ lv' has shrunk items output

/-- A key of more levels: the loop goes on with the child of the key and that of the key before
it. -/
theorem HasLevels.deleteInternalSlot_ends (h : HasLevels list lv m₀) (fueled : Fueled fuel lv)
    (min : keyMin < key) (found : Found lv m₀ key prev y u e v m) (first : u ≠ [])
    (above : 0 < levelForKey key)
    (goal : ∀ t lv', HasLevels list lv' t → Shrunk key (lv 0) (lv' 0) →
      t.itemNext = m₀.itemNext → t.output = m₀.output → Q (some 1) t) :
    Prog.Ends exec (do
      let current ← loadSlot y.addr u.length
      let leftNode ← loadSlot y.addr (u.length - 1)
      deleteInternalSlot y.addr u.length
      writeLock fuel leftNode
      writeLockEvicting fuel current
      if prev ≠ null then writeUnlock prev
      writeUnlock y.addr
      deleteBelow fuel key (← loadLevel current) leftNode current
      return some 1) Q m := by
  have pos : 0 < fuel := Nat.lt_of_le_of_lt (Nat.zero_le _) fueled.levels
  have lt := levelForKey_lt key
  obtain ⟨-, elems, lo, hi⟩ := h.found_elems found
  have gone := h.deleteSlot_gone found first
  have split := found.split.entries
  obtain ⟨level, eqLevel⟩ := Nat.exists_eq_add_one.mpr above
  have hy := found.mem
  rw [eqLevel] at lt gone hy
  -- the elements of the key and of the key before it
  obtain ⟨u', x, eqU⟩ := (List.eq_nil_or_concat u).resolve_left first
  rw [List.concat_eq_append] at eqU
  have memE : e ∈ flat (lv (level + 1)) := mem_flat.mpr ⟨y, hy, by simp [split]⟩
  have memX : x ∈ flat (lv (level + 1)) := mem_flat.mpr ⟨y, hy, by simp [split, eqU]⟩
  have before : x.1 < e.1 := by
    have sorted := (h.stands _ lt).sorted.entries hy
    rw [split] at sorted
    exact (List.pairwise_append.mp sorted).2.2 x (by simp [eqU]) e (by simp)
  obtain ⟨d, c, beside, addrD, addrC⟩ := h.beside lt memX memE before
  rw [found.isKey] at beside
  have lenU : u.length - 1 = u'.length := by simp [eqU]
  have slotE : (m.node y.addr).slots u.length = c.addr := by
    rw [elems.slots u.length (by simp), addrC]
    simp
  have slotX : (m.node y.addr).slots u'.length = d.addr := by
    rw [elems.slots u'.length (by simp [eqU]), addrD]
    simp [eqU]
  -- both children are loaded before the entry goes
  rw [Prog.ends_bind, ends_loadSlot, slotE, Prog.ends_bind, ends_loadSlot, lenU, slotX]
  change Prog.Ends exec (deleteSlot y.addr u.length >>= _) _ _
  rw [Prog.ends_bind, ends_deleteSlot lo hi]
  obtain ⟨m₁, eqM⟩ : ∃ m₁, m₁ = m.setNode y.addr ((m.node y.addr).deleteSlot u.length) := ⟨_, rfl⟩
  have ctrl₁ : m₁.ctrl = m.ctrl := by rw [eqM, Mem.setNode_ctrl]
  rw [← eqM] at gone ⊢
  -- the nodes of the levels below are neither `prev` nor `y`
  have apart {l : Nat} (le : l ≤ level) {z w : Cell} (hz : z ∈ lv l) (hw : w ∈ lv (level + 1)) :
      z.addr ≠ w.addr := h.addr_ne (by omega) lt (by omega) hz hw
  have below : ∀ l ≤ level, ∀ z ∈ lv l,
      m₁.node z.addr = m₀.node z.addr ∧ Idle (m.ctrl z.addr) := by
    intro l le z hz
    have stands := h.stands l (by omega)
    refine ⟨?_, found.idle _ ?_ (apart le hz hy) (stands.idle z hz)⟩
    · rw [gone.others, found.same.node]
      intro mem
      obtain ⟨w, hw, eq⟩ := List.mem_map.mp mem
      exact apart le hz hw eq.symm
    · rintro rfl
      rcases found.left with ⟨isNull, -⟩ | ⟨front, w, back, cells, eq⟩
      · exact (stands.known z hz).1 isNull
      · rw [eqLevel] at cells
        exact apart le hz (w := w) (by simp [cells]) eq.symm
  have last := Nat.le_refl level
  have lt' : level < maxLevel := Nat.lt_of_succ_lt lt
  -- lock the two nodes of the next level, then free the two of this one
  apply lockBoth_ends pos (h.beside_ne lt' beside) (ctrl₁ ▸ (below level last d beside.left).2)
    (ctrl₁ ▸ (below level last c beside.right).2)
  intro t₁ same₁ ctrl
  apply ends_unlockParent
  intro t₂ same₂ unlocked
  rw [Prog.ends_bind, ends_writeUnlock]
  generalize made : t₂.setCtrl y.addr (hoccUnlocked (t₂.ctrl y.addr)) = t₃
  have same₃ : m₁.Same t₃ := made ▸ same₁.trans (same₂.trans (Mem.same_setCtrl _ _ _))
  have free₃ : ∀ a, ¬ oneOf d c a → Idle (m.ctrl a) ∨ a = prev ∧ prev ≠ null ∨ a = y.addr →
      Idle (t₃.ctrl a) := by
    intro a other was
    rw [← made, Mem.setCtrl_ctrl, Function.update_apply]
    split
    · exact idle_hoccUnlocked _
    · next neY =>
      apply unlocked
      rw [ctrl a other, ctrl₁]
      exact was.imp_right fun is => is.resolve_right neY
  obtain ⟨after, heldC⟩ := (h.stands level lt').linked.held_of_mem beside.right
  have levelC : (t₃.node c.addr).level = level := by
    rw [same₃.node, (below level last c beside.right).1, heldC.level]
  rw [Prog.ends_bind, ends_loadLevel, levelC, Prog.ends_bind]
  -- what `deleteBelow` starts from: the levels below are as in the beginning, with two locks
  have lower : Lower lv m₀ level (oneOf d c) t₃ :=
    ⟨fun l le z hz => by rw [same₃.node, (below l le z hz).1],
      fun l le z hz other => free₃ _ other (.inl (below l le z hz).2)⟩
  apply (h.deleteBelow_ends fueled lt' lower beside).mono
  intro _ t₄ rest
  -- the key has left this level, and `deleteBelow` takes it from the others
  have done : Gone key lv (levelForKey key) (fun a => a = prev ∧ prev ≠ null ∨ a = y.addr) m
      t₄ := by
    rw [eqLevel]
    refine (gone.between (.refl m) same₃).step ?_ (fun a was => ?_) rest
    · intro z hz l le mem
      obtain ⟨w, hw, eq⟩ := List.mem_map.mp mem
      exact apart le hw hz eq
    · by_cases isNext : oneOf d c a
      · exact .inr isNext
      · exact .inl (free₃ a isNext was)
  obtain ⟨lv', has, shrunk, items, output⟩ :=
    h.gone min found.same (fun a some was => found.idle_or some was) done
  exact goal t₄ lv' has shrunk items output

/-- What the deletion does when it has found the key in `y`, which it holds with `prev`. -/
theorem HasLevels.deleteFound_ends (h : HasLevels list lv m₀) (fueled : Fueled fuel lv)
    (min : keyMin < key) (found : Found lv m₀ key prev y u e v m)
    (goal : ∀ t lv', HasLevels list lv' t → Shrunk key (lv 0) (lv' 0) →
      t.itemNext = m₀.itemNext → t.output = m₀.output → Q (some 1) t) :
    Prog.Ends exec (do
      Prog.assert ((← loadKey y.addr u.length) = key)
      if u.length ≠ 0 then
        if (← loadLevel y.addr) = 0 then
          deleteLeafSlot y.addr u.length
          if prev ≠ null then writeUnlock prev
          writeUnlock y.addr
          return some 1
        else
          let current ← loadSlot y.addr u.length
          let leftNode ← loadSlot y.addr (u.length - 1)
          deleteInternalSlot y.addr u.length
          writeLock fuel leftNode
          writeLockEvicting fuel current
          if prev ≠ null then writeUnlock prev
          writeUnlock y.addr
          deleteBelow fuel key (← loadLevel current) leftNode current
          return some 1
      else
        Prog.assert (prev ≠ null)
        deleteBelow fuel key (← loadLevel y.addr) prev y.addr
        return some 1) Q m := by
  obtain ⟨after, held⟩ := (h.stands _ (levelForKey_lt key)).linked.held_of_mem found.mem
  rw [← found.same.node] at held
  rw [Prog.ends_bind, ends_loadKey, (held.elems.at_split found.split).1, found.isKey,
    Prog.ends_bind, Prog.ends_assert]
  refine ⟨rfl, ?_⟩
  by_cases first : u = []
  · subst first
    rw [if_neg (by simp)]
    -- the key is the first of its node, so it has to be unlinked on this level too
    exact h.deleteFirstKey_ends fueled min found goal
  · have some : u.length ≠ 0 := fun zero => first (List.length_eq_zero_iff.mp zero)
    rw [if_pos some, Prog.ends_bind, ends_loadLevel, held.level]
    rcases Nat.eq_zero_or_pos (levelForKey key) with zero | above
    · rw [if_pos zero]
      -- a key of level 0 is in a leaf only
      exact h.deleteLeafSlot_ends min found first zero goal
    · rw [if_neg (Nat.ne_of_gt above)]
      exact h.deleteInternalSlot_ends fueled min found first above goal

/-- The deletion at its first attempt. -/
theorem HasLevels.deleteOnce_ends (h : HasLevels list lv m) (fueled : Fueled fuel lv)
    (min : keyMin < key) (max : key < keyMax) {Q : Option Nat → Mem → Prop}
    (absent : ∀ t, key ∉ (flat (lv 0)).map Prod.fst → HasLevels list lv t →
      t.itemNext = m.itemNext → t.output = m.output → Q (some 0) t)
    (gone : ∀ t lv', HasLevels list lv' t → Shrunk key (lv 0) (lv' 0) →
      t.itemNext = m.itemNext → t.output = m.output → Q (some 1) t) :
    (deleteOnce fuel list key).Ends exec Q m := by
  have lt := levelForKey_lt key
  have pos : 0 < fuel := Nat.lt_of_le_of_lt (Nat.zero_le _) fueled.levels
  have stands := h.stands _ lt
  rw [deleteOnce, Prog.ends_bind]
  apply h.deleteTraversal_ends fueled min max
  intro d hd low
  obtain ⟨after, held⟩ := stands.linked.held_of_mem hd
  have elems : ((m.setCtrl d.addr (m.ctrl d.addr + hoccWriterBit)).node d.addr).Elems d.entries :=
    held.elems
  change Prog.Ends exec (writeLock fuel d.addr >>= _) _ _
  rw [Prog.ends_bind, ends_writeLock pos (stands.idle d hd), Prog.ends_bind, ends_validate,
    Mem.setCtrl_ctrl, Function.update_self, validate_self, if_pos rfl, Prog.ends_bind,
    ends_loadNumElts, elems.numElts, Prog.ends_bind]
  apply elems.findRankLinear_ends (stands.sorted.entries hd) held.some (Nat.le_of_lt low)
  intro u e v split
  rw [Prog.ends_bind, ends_loadKey, (elems.at_split split).1]
  obtain ⟨front, rest, cells⟩ := List.append_of_mem hd
  by_cases isKey : e.1 = key
  · -- the node that the traversal has found contains the key
    rw [beq_iff_eq.mpr isKey, Prog.ends_bind, deleteWalk_found pos]
    refine h.deleteFound_ends fueled min ⟨m.same_setCtrl _ _, hd, split, isKey, ?_, ?_⟩ gone
    · intro a _ ne was
      rw [Mem.setCtrl_ctrl, Function.update_of_ne ne]
      exact was
    · refine .inl ⟨rfl, fun none => ?_⟩
      -- the traversal stops at a node that begins before the key, so the key is not its first
      have first : d.first = e.1 := by
        rw [Cell.first, split.entries, none]
        rfl
      rw [first, isKey] at low
      exact Nat.lt_irrefl _ low
  · -- otherwise the loop goes to the right, with two nodes locked
    rw [beq_eq_false_iff_ne.mpr isKey, Prog.ends_bind]
    have suffix : Stands m (levelForKey key) (d :: rest) := by
      rw [cells] at stands
      exact stands.suffix
    have nodup := suffix.linked.nodup suffix.sorted
    have few := fueled.nodes _ lt
    rw [cells, List.length_append, List.length_cons] at few
    have linked : Linked (m.setCtrl d.addr (m.ctrl d.addr + hoccWriterBit)).node (levelForKey key)
        (d :: rest) := suffix.linked
    have others : ∀ a, a ≠ d.addr → Idle (m.ctrl a) →
        Idle ((m.setCtrl d.addr (m.ctrl d.addr + hoccWriterBit)).ctrl a) := by
      intro a ne was
      rw [Mem.setCtrl_ctrl, Function.update_of_ne ne]
      exact was
    apply deleteWalk_ends pos linked suffix.sorted nodup
    · intro c hc
      have ne : c.addr ≠ d.addr := fun eq =>
        (List.nodup_cons.mp nodup).1 (eq ▸ List.mem_map_of_mem hc)
      exact others _ ne (suffix.idle c (List.mem_cons_of_mem d hc))
    · exact Nat.le_of_lt low
    · exact max
    · omega
    · exact split
    · exact isKey
    · intro prev front' x back u' e' v' rank t cut split' other same frees
      -- it has stopped before the key: the key is in no node
      dsimp only
      rw [Bool.not_false, if_pos rfl, Prog.ends_bind, ends_writeUnlock]
      have whole : Cut key (lv (levelForKey key)) (front ++ front') x back :=
        ⟨by rw [cells, cut.cells, List.append_assoc], cut.low, cut.high⟩
      have notIn : key ∉ (flat (lv (levelForKey key))).map Prod.fst := by
        rw [(whole.split split' stands.sorted stands.linked.some).mem_iff stands.sorted]
        exact other
      refine absent _ (fun mem => notIn ?_) (h.congr (fun a _ => ⟨?_, fun was => ?_⟩) ?_)
        same.itemNext same.output
      · exact (h.shape.keys _ lt key).mpr ⟨mem, .inr (Nat.le_refl _)⟩
      · rw [Mem.setCtrl_node, same.node, Mem.setCtrl_node]
      · rw [Mem.setCtrl_ctrl, Function.update_apply]
        split
        · exact idle_hoccUnlocked _
        · next ne =>
          refine frees a ne ?_
          by_cases isD : a = d.addr
          · exact .inl isD
          · exact .inr (others a isD was)
      · exact Nat.le_of_eq same.fresh.symm
    · intro front' x y back u' e' v' t eq split' isKey' low' same frees
      -- it has found the key in a node to the right
      have place : lv (levelForKey key) = (front ++ front') ++ x :: y :: back := by
        rw [cells, eq]
        simp
      refine h.deleteFound_ends fueled min ⟨(m.same_setCtrl _ _).trans same, ?_, split', isKey', ?_,
        .inr ⟨front ++ front', x, back, place, rfl⟩⟩ gone
      · rw [place]
        simp
      · intro a neX neY was
        refine frees a neX neY ?_
        by_cases isD : a = d.addr
        · exact .inl isD
        · exact .inr (others a isD was)

/-- The deletion of a key at the first attempt. -/
theorem deleteFirst_ends {s : Store} (h : Represents list s m) (enough : Enough fuel s)
    (proper : Proper key) :
    (deleteOnce fuel list key).Ends exec (fun r t => ∃ n, r = some n ∧
      .code n = (s.delete key).1 ∧ Represents list (s.delete key).2 t) m := by
  rw [Store.delete, if_pos proper]
  obtain ⟨⟨lv, has, flats⟩, items, output⟩ := h
  obtain ⟨min, max⟩ := proper
  have fueled : Fueled fuel lv := has.fueled enough.1 (by
    rw [flats]
    exact enough.2)
  have sorted := (has.stands 0 (by decide)).sorted
  rw [flats] at sorted
  have tail : Assoc.Ascending s.pairs := (List.pairwise_cons.mp sorted).2
  apply has.deleteOnce_ends fueled min max
  · intro t absent has' items' output'
    rw [flats, List.map_cons, List.mem_cons, not_or] at absent
    rw [Assoc.find_none absent.2]
    exact ⟨0, rfl, rfl, ⟨lv, has', flats⟩, items'.trans items, output' ▸ output⟩
  · intro t lv' has' shrunk items' output'
    obtain ⟨p, old, q, eq, eq'⟩ := shrunk.flat
    cases p with
    | nil =>
      rw [flats] at eq
      exact absurd (Prod.mk.inj (List.cons.inj eq).1).1 (Nat.ne_of_lt min)
    | cons x p =>
      rw [flats, List.cons_append] at eq
      obtain ⟨rfl, pairs⟩ := List.cons.inj eq
      rw [pairs] at tail
      rw [pairs, Assoc.find_there tail]
      refine ⟨1, rfl, rfl, ⟨⟨lv', has', ?_⟩, items'.trans items, output' ▸ output⟩⟩
      rw [eq', Assoc.erase_there tail, List.cons_append]

/-- `bsl_delete`, run alone, does what the store says. -/
theorem bslDelete_ends {s : Store} (h : Represents list s m) (enough : Enough fuel s) :
    (bslDelete fuel list key).Ends exec
      (fun r t => .code r = (s.delete key).1 ∧ Represents list (s.delete key).2 t) m := by
  by_cases proper : Proper key
  · rw [bslDelete, if_neg proper.inside]
    exact topRetry_ends (Nat.lt_of_le_of_lt (Nat.zero_le _) enough.1)
      (deleteFirst_ends h enough proper)
  · rw [bslDelete, if_pos (outside_of_not_proper proper), Store.delete, if_neg proper]
    exact ⟨rfl, h⟩

end DBx1000.Bskiplist
