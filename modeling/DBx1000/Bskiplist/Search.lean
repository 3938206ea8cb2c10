import DBx1000.Bskiplist.Cells

/-!
# Searches in a list that stands

The traversals, run alone on a well formed list. They find the node of the key at the first
attempt and leave the memory as it is.
-/

namespace DBx1000.Bskiplist

open Program Hocc

variable {m : Mem} {list : Bsl} {lv : Levels} {l level fuel : Nat} {tested : Bool} {key : Key}
  {cells front rest : List Cell} {c d : Cell}

/-! ### One level -/

theorem Stands.horizontal_ends {Q : Option (Addr × Hocc64) → Mem → Prop}
    (h : Stands m level (d :: rest)) (low : d.first ≤ key) (max : key < keyMax)
    (enough : rest.length < fuel)
    (goal : ∀ front c back, Cut key (d :: rest) front c back →
      Q (some (c.addr, m.ctrl c.addr)) m) :
    (horizontal tested key fuel d.addr (m.ctrl d.addr)).Ends exec Q m := by
  induction rest generalizing d fuel with
  | nil =>
    obtain ⟨fuel, rfl⟩ := Nat.exists_eq_add_one.mpr enough
    have header : (m.node d.addr).nextHeader = keyMax := h.linked.1.nextHeader
    rw [horizontal, Prog.ends_bind, ends_loadNextHeader, header, if_neg (Nat.not_le.mpr max)]
    exact goal [] d [] ⟨rfl, low, max⟩
  | cons c rest ih =>
    obtain ⟨fuel, rfl⟩ := Nat.exists_eq_add_one.mpr (Nat.lt_of_le_of_lt (Nat.zero_le _) enough)
    have header : (m.node d.addr).nextHeader = c.first := h.linked.1.nextHeader
    have next : (m.node d.addr).next = c.addr := h.linked.1.next
    rw [horizontal, Prog.ends_bind, ends_loadNextHeader, header]
    by_cases on : c.first ≤ key
    · have idle := h.idle d List.mem_cons_self
      have some := (h.known c (by simp)).1
      rw [if_pos on, Prog.ends_bind, ends_loadNext, next, if_neg some, Prog.ends_bind,
        ends_loadVersion]
      simp only [idle.hasWriter, Bool.false_eq_true, and_false, if_false]
      rw [Prog.ends_bind, ends_validate, validate_self]
      apply ih h.tail on (Nat.lt_of_succ_lt_succ enough)
      intro front c' back cut
      exact goal (d :: front) c' back ⟨congrArg (d :: ·) cut.cells, cut.low, cut.high⟩
    · rw [if_neg on]
      exact goal [] d (c :: rest) ⟨rfl, low, Nat.lt_of_not_le on⟩

/-- The search for the rank of a key splits the elements of the node. -/
theorem Node.Elems.findRank_ends {Q : Nat → Mem → Prop} {es : List (Key × Nat)} {n : Addr}
    (h : (m.node n).Elems es) (sorted : Increasing es) (some : es ≠ []) (low : firstKey es ≤ key)
    (goal : ∀ u e v, Split key es u e v → Q u.length m) :
    (findRank n es.length key).Ends exec Q m := by
  apply (Bskiplist.findRank_ends key (h.sorted sorted)).mono
  rintro r t ⟨rfl, rank⟩
  obtain ⟨u, e, v, split, rfl⟩ := h.split rank some low
  exact goal u e v split

theorem Node.Elems.findRankLinear_ends {Q : Nat → Mem → Prop} {es : List (Key × Nat)} {n : Addr}
    (h : (m.node n).Elems es) (sorted : Increasing es) (some : es ≠ []) (low : firstKey es ≤ key)
    (goal : ∀ u e v, Split key es u e v → Q u.length m) :
    (findRankLinear n es.length key).Ends exec Q m := by
  apply (Bskiplist.findRankLinear_ends key (h.sorted sorted)).mono
  rintro r t ⟨rfl, rank⟩
  obtain ⟨u, e, v, split, rfl⟩ := h.split rank some low
  exact goal u e v split

/-- The element at the rank of a key. -/
theorem Node.Elems.at_split {n : Node} {es u v : List (Key × Nat)} {e : Key × Nat} (h : n.Elems es)
    (split : Split key es u e v) : n.keys u.length = e.1 ∧ n.slots u.length = e.2 := by
  have lt : u.length < es.length := by
    rw [split.entries, List.length_append, List.length_cons]
    omega
  have is : es[u.length] = e := by
    simp [split.entries]
  rw [h.keys _ lt, h.slots _ lt, is]
  exact ⟨rfl, rfl⟩

theorem Stands.findChild_ends {Q : Option Addr → Mem → Prop} (h : Stands m level cells)
    (mem : c ∈ cells) (low : c.first ≤ key) (kids : ∀ e ∈ flat cells, e.2 ≠ null)
    (goal : ∀ e ∈ c.entries, e.1 ≤ key → Q (some e.2) m) :
    (findChild key c.addr (m.ctrl c.addr)).Ends exec Q m := by
  obtain ⟨after, held⟩ := h.linked.held_of_mem mem
  rw [findChild, Prog.ends_bind, ends_loadNumElts, held.elems.numElts, Prog.ends_bind]
  apply held.elems.findRank_ends (h.sorted.entries mem) held.some low
  intro u e v split
  have inside : e ∈ c.entries := by
    rw [split.entries]
    simp
  rw [Prog.ends_bind, ends_loadSlot, (held.elems.at_split split).2]
  rw [if_neg (kids e (mem_flat.mpr ⟨c, mem, inside⟩))]
  simp only [(h.idle c mem).hasWriter, Bool.false_eq_true, if_false]
  rw [Prog.ends_bind, ends_validate, validate_self]
  exact goal e inside split.low

/-! ### From level to level -/

/-- The loops have more fuel than a level has nodes, and than there are levels. -/
structure Fueled (fuel : Nat) (lv : Levels) : Prop where
  levels : maxLevel < fuel
  nodes : ∀ l < maxLevel, (lv l).length < fuel

theorem HasLevels.kids (h : HasLevels list lv m) (lt : l + 1 < maxLevel) :
    ∀ e ∈ flat (lv (l + 1)), e.2 ≠ null := by
  intro e mem
  obtain ⟨d, hd, -, addr⟩ := h.child lt mem
  rw [← addr]
  exact ((h.stands l (Nat.lt_of_succ_lt lt)).known d hd).1

theorem HasLevels.horizontal_ends {Q : Option (Addr × Hocc64) → Mem → Prop}
    (h : HasLevels list lv m) (fueled : Fueled fuel lv) (lt : l < maxLevel) (mem : d ∈ lv l)
    (low : d.first ≤ key) (max : key < keyMax)
    (goal : ∀ front c back, Cut key (lv l) front c back →
      Q (some (c.addr, m.ctrl c.addr)) m) :
    (horizontal tested key fuel d.addr (m.ctrl d.addr)).Ends exec Q m := by
  obtain ⟨front, rest, eq⟩ := List.append_of_mem mem
  have stands := h.stands l lt
  have few := fueled.nodes l lt
  rw [eq] at stands few
  rw [List.length_append, List.length_cons] at few
  apply stands.suffix.horizontal_ends low max (by omega)
  intro mid c back cut
  refine goal (front ++ mid) c back ⟨?_, cut.low, cut.high⟩
  rw [eq, cut.cells, List.append_assoc]

theorem moveDown_ends {Q : Option (Addr × Hocc64) → Mem → Prop} {curr child : Addr}
    (goal : Q (some (child, m.ctrl child)) m) :
    (moveDown key curr (m.ctrl curr) child).Ends exec Q m := by
  unfold moveDown
  rw [Prog.ends_bind, ends_loadVersion, Prog.ends_bind, ends_validate, validate_self]
  exact goal

/-- The node that the descent reaches is the first one of the list, or the child for a key. -/
theorem HasLevels.descend_ends {Q : Option (Addr × Hocc64) → Mem → Prop} {levels : Nat}
    (h : HasLevels list lv m) (fueled : Fueled fuel lv) (lt : l + levels < maxLevel)
    (mem : d ∈ lv (l + levels)) (low : d.first ≤ key) (max : key < keyMax)
    (goal : ∀ c ∈ lv l, c.first ≤ key → (levels = 0 → c = d) →
      (levels ≠ 0 → (c.first, c.addr) ∈ flat (lv (l + 1))) →
        Q (some (c.addr, m.ctrl c.addr)) m) :
    (descend tested fuel key levels d.addr (m.ctrl d.addr)).Ends exec Q m := by
  induction levels generalizing d with
  | zero => exact goal d mem low (fun _ => rfl) fun never => absurd rfl never
  | succ levels ih =>
    have above : l + levels + 1 < maxLevel := lt
    rw [descend, Prog.ends_bind]
    apply h.horizontal_ends fueled above mem low max
    intro front c back cut
    have inside : c ∈ lv (l + levels + 1) := by
      rw [cut.cells]
      simp
    rw [Prog.ends_bind]
    apply (h.stands _ above).findChild_ends inside cut.low (h.kids above)
    intro e he small
    have elem : e ∈ flat (lv (l + levels + 1)) := mem_flat.mpr ⟨c, inside, he⟩
    obtain ⟨child, hc, first, addr⟩ := h.child above elem
    rw [← addr, Prog.ends_bind]
    apply moveDown_ends
    apply ih (Nat.lt_of_succ_lt above) hc (first ▸ small)
    intro c' hc' low' isChild inner
    refine goal c' hc' low' (fun never => absurd never (Nat.succ_ne_zero _)) fun _ => ?_
    rcases Nat.eq_zero_or_pos levels with rfl | pos
    · obtain rfl := isChild rfl
      rw [first, addr]
      exact elem
    · exact inner (Nat.ne_of_gt pos)

/-- From the first node down to the level of a key. -/
theorem HasLevels.descend_head {Q : Option (Addr × Hocc64) → Mem → Prop}
    (h : HasLevels list lv m) (fueled : Fueled fuel lv) (lt : l < maxLevel)
    (max : key < keyMax)
    (goal : ∀ c ∈ lv l, c.first ≤ key →
      (c.first = keyMin ∨ l + 1 < maxLevel ∧ (c.first, c.addr) ∈ flat (lv (l + 1))) →
        Q (some (c.addr, m.ctrl c.addr)) m) :
    (descend tested fuel key (maxLevel - 1 - l) (list (maxLevel - 1))
      (m.ctrl (list (maxLevel - 1)))).Ends exec Q m := by
  have top : l + (maxLevel - 1 - l) = maxLevel - 1 := by omega
  obtain ⟨d, rest, eq, first, addr⟩ := h.head (l := maxLevel - 1) (by decide)
  have mem : d ∈ lv (l + (maxLevel - 1 - l)) := by
    rw [top, eq]
    exact List.mem_cons_self
  rw [← addr]
  apply h.descend_ends fueled (by omega) mem (first ▸ Nat.zero_le key) max
  intro c hc low isHead inner
  refine goal c hc low ?_
  by_cases here : maxLevel - 1 - l = 0
  · exact .inl (isHead here ▸ first)
  · exact .inr ⟨by omega, inner here⟩

/-! ### The traversals -/

theorem HasLevels.insertTraversal_ends {Q : Option (Addr × Hocc64) → Mem → Prop}
    (h : HasLevels list lv m) (fueled : Fueled fuel lv) (max : key < keyMax)
    (goal : ∀ front c back, Cut key (lv (levelForKey key)) front c back →
      Q (some (c.addr, m.ctrl c.addr)) m) :
    (insertTraversal fuel list key).Ends exec Q m := by
  have lt := levelForKey_lt key
  unfold insertTraversal
  rw [Prog.ends_bind, ends_loadVersion, Prog.ends_bind]
  apply h.descend_head fueled lt max
  intro c hc low _
  exact h.horizontal_ends fueled lt hc low max goal

/-- The deletion ends its descent before the key, which is not an element of a higher level. -/
theorem HasLevels.deleteTraversal_ends {Q : Option (Addr × Hocc64) → Mem → Prop}
    (h : HasLevels list lv m) (fueled : Fueled fuel lv) (min : keyMin < key) (max : key < keyMax)
    (goal : ∀ c ∈ lv (levelForKey key), c.first < key → Q (some (c.addr, m.ctrl c.addr)) m) :
    (deleteTraversal fuel list key).Ends exec Q m := by
  have lt := levelForKey_lt key
  unfold deleteTraversal
  rw [Prog.ends_bind, ends_loadVersion]
  apply h.descend_head fueled lt max
  intro c hc low place
  refine goal c hc (Nat.lt_of_le_of_ne low fun eq => ?_)
  rcases place with first | ⟨above, mem⟩
  · exact Nat.ne_of_lt min (first.symm.trans eq)
  · rw [eq] at mem
    have level := ((h.shape.keys _ above key).mp (List.mem_map_of_mem mem)).2
    rcases level with zero | level
    · exact Nat.ne_of_gt min zero
    · omega

theorem HasLevels.getLevels_ends {Q : Option (Option Val) → Mem → Prop}
    (h : HasLevels list lv m) (fueled : Fueled fuel lv) (lt : level < maxLevel) (mem : d ∈ lv level)
    (low : d.first ≤ key) (max : key < keyMax)
    (found : ∀ value, (key, value) ∈ flat (lv 0) → Q (some (some value)) m)
    (absent : key ∉ (flat (lv 0)).map Prod.fst → Q (some none) m) :
    (getLevels fuel key level d.addr (m.ctrl d.addr)).Ends exec Q m := by
  induction level generalizing d with
  | zero =>
    have stands := h.stands 0 lt
    rw [getLevels, Prog.ends_bind]
    apply h.horizontal_ends fueled lt mem low max
    intro front c back cut
    have inside : c ∈ lv 0 := by
      rw [cut.cells]
      simp
    obtain ⟨after, held⟩ := stands.linked.held_of_mem inside
    simp only [(stands.idle c inside).hasWriter, Bool.false_eq_true, if_false]
    rw [Prog.ends_bind, ends_loadNumElts, held.elems.numElts, Prog.ends_bind]
    apply held.elems.findRank_ends (stands.sorted.entries inside) held.some cut.low
    intro u e v split
    have whole := cut.split split stands.sorted stands.linked.some
    obtain ⟨isKey, isSlot⟩ := held.elems.at_split split
    rw [Prog.ends_bind, ends_loadKey, isKey]
    by_cases here : e.1 = key
    · rw [if_pos here, Prog.ends_bind, ends_loadSlot, isSlot, Prog.ends_bind, ends_validate,
        validate_self]
      refine found e.2 ?_
      rw [whole.entries, ← here]
      exact List.mem_append_right _ List.mem_cons_self
    · rw [if_neg here, Prog.ends_bind, ends_validate, validate_self]
      exact absent fun mem => here ((whole.mem_iff stands.sorted).mp mem)
  | succ level ih =>
    have stands := h.stands (level + 1) lt
    rw [getLevels, Prog.ends_bind]
    apply h.horizontal_ends fueled lt mem low max
    intro front c back cut
    have inside : c ∈ lv (level + 1) := by
      rw [cut.cells]
      simp
    obtain ⟨after, held⟩ := stands.linked.held_of_mem inside
    simp only [(stands.idle c inside).hasWriter, Bool.false_eq_true, if_false]
    rw [Prog.ends_bind, ends_loadNumElts, held.elems.numElts, Prog.ends_bind]
    apply held.elems.findRank_ends (stands.sorted.entries inside) held.some cut.low
    intro u e v split
    have elem : e ∈ flat (lv (level + 1)) := by
      refine mem_flat.mpr ⟨c, inside, ?_⟩
      rw [split.entries]
      simp
    rw [Prog.ends_bind, ends_loadSlot, (held.elems.at_split split).2, if_neg (h.kids lt e elem),
      Prog.ends_bind, ends_validate, validate_self]
    obtain ⟨child, hc, first, addr⟩ := h.child lt elem
    rw [← addr]
    change Prog.Ends exec (moveDown key c.addr (m.ctrl c.addr) child.addr >>= _) Q m
    rw [Prog.ends_bind]
    apply moveDown_ends
    exact ih (Nat.lt_of_succ_lt lt) hc (first ▸ split.low)

/-- A search finds the value of the key, or that it is not there. -/
theorem HasLevels.getTraversal_ends {Q : Option (Option Val) → Mem → Prop}
    (h : HasLevels list lv m) (fueled : Fueled fuel lv) (max : key < keyMax)
    (found : ∀ value, (key, value) ∈ flat (lv 0) → Q (some (some value)) m)
    (absent : key ∉ (flat (lv 0)).map Prod.fst → Q (some none) m) :
    (getTraversal fuel list key).Ends exec Q m := by
  obtain ⟨d, rest, eq, first, addr⟩ := h.head (l := maxLevel - 1) (by decide)
  unfold getTraversal
  rw [Prog.ends_bind, ends_loadVersion, ← addr]
  have mem : d ∈ lv (maxLevel - 1) := by
    rw [eq]
    exact List.mem_cons_self
  exact h.getLevels_ends fueled (by decide) mem (first ▸ Nat.zero_le key) max found absent

/-- Along first children to the leaf that begins with the key. -/
theorem HasLevels.foundDescent_ends {Q : Option (Addr × Hocc64) → Mem → Prop}
    (h : HasLevels list lv m) (lt : l < maxLevel) (enough : l < fuel) (mem : d ∈ lv l)
    (goal : ∀ c ∈ lv 0, c.first = d.first → Q (some (c.addr, m.ctrl c.addr)) m) :
    (foundDescent fuel d.addr (m.ctrl d.addr)).Ends exec Q m := by
  induction l generalizing d fuel with
  | zero =>
    obtain ⟨fuel, rfl⟩ := Nat.exists_eq_add_one.mpr enough
    obtain ⟨after, held⟩ := (h.stands 0 lt).linked.held_of_mem mem
    rw [foundDescent, Prog.ends_bind, ends_loadLevel, held.level, if_neg (Nat.lt_irrefl 0)]
    exact goal d mem rfl
  | succ l ih =>
    obtain ⟨fuel, rfl⟩ := Nat.exists_eq_add_one.mpr (Nat.lt_of_le_of_lt (Nat.zero_le _) enough)
    have stands := h.stands (l + 1) lt
    obtain ⟨after, held⟩ := stands.linked.held_of_mem mem
    have elem : (d.first, (m.node d.addr).slots 0) ∈ flat (lv (l + 1)) :=
      mem_flat.mpr ⟨d, mem, (held.elems.head held.some).2⟩
    obtain ⟨child, hc, first, addr⟩ := h.child lt elem
    rw [foundDescent, Prog.ends_bind, ends_loadLevel, held.level, if_pos (Nat.succ_pos l),
      Prog.ends_bind, ends_loadSlot, if_neg (h.kids lt _ elem)]
    simp only [(stands.idle d mem).hasWriter, Bool.false_eq_true, if_false]
    rw [Prog.ends_bind, ends_validate, validate_self, if_pos rfl, Prog.ends_bind,
      ends_loadVersion, Prog.ends_bind, ends_validate, validate_self, if_pos rfl]
    change child.addr = (m.node d.addr).slots 0 at addr
    rw [← addr]
    apply ih (Nat.lt_of_succ_lt lt) (Nat.lt_of_succ_lt_succ enough) hc
    intro c hc' same
    exact goal c hc' (same.trans first)

/-- The scan read-locks a leaf whose first key is not behind the start. -/
theorem HasLevels.scanTraversal_ends {Q : Option Addr → Mem → Prop}
    (h : HasLevels list lv m) (fueled : Fueled fuel lv) (max : key < keyMax)
    (goal : ∀ d ∈ lv 0, d.first ≤ key →
      Q (some d.addr) (m.setCtrl d.addr (m.ctrl d.addr + hoccReaderUnit))) :
    (scanTraversal fuel list key).Ends exec Q m := by
  have lt : 1 < maxLevel := by decide
  unfold scanTraversal
  rw [Prog.ends_bind, ends_loadVersion, Prog.ends_bind]
  apply h.descend_head (l := 1) fueled lt max
  intro c hc low _
  change Prog.Ends exec (horizontal false key fuel c.addr (m.ctrl c.addr) >>= _) Q m
  rw [Prog.ends_bind]
  apply h.horizontal_ends fueled lt hc low max
  intro front d back cut
  have inside : d ∈ lv 1 := by
    rw [cut.cells]
    simp
  change Prog.Ends exec (findChild key d.addr (m.ctrl d.addr) >>= _) Q m
  rw [Prog.ends_bind]
  apply (h.stands 1 lt).findChild_ends inside cut.low (h.kids lt)
  intro e he small
  obtain ⟨leaf, hl, first, addr⟩ := h.child (l := 0) lt (mem_flat.mpr ⟨d, inside, he⟩)
  have pos : 0 < fuel := Nat.lt_of_le_of_lt (Nat.zero_le _) fueled.levels
  change Prog.Ends exec (readLock e.2 fuel >>= _) Q m
  -- the leaf is not the node whose version is validated
  have ne : d.addr ≠ leaf.addr := h.addr_ne lt (by decide) (by decide) inside hl
  rw [← addr, Prog.ends_bind, ends_readLock pos ((h.stands 0 (by decide)).idle leaf hl),
    Prog.ends_bind, ends_validate, Mem.setCtrl_ctrl, Function.update_of_ne ne, validate_self]
  exact goal leaf hl (first ▸ small)

end DBx1000.Bskiplist
