import DBx1000.Bskiplist.Search
import DBx1000.Bskiplist.Levels

/-!
# The levels below an inserted key

What `bsl_insert` does below the level of the key, run alone: each level gets a new node that
begins with the key and takes over what is behind it.
-/

namespace DBx1000.Bskiplist

open Program Hocc

variable {m : Mem} {list : Bsl} {lv : Levels} {l level fuel : Nat} {key : Key}
  {cells front back rest : List Cell} {c d : Cell}

/-! ### Two nodes -/

/-- The memory with two nodes changed. -/
def Mem.pair (m : Mem) (a : Addr) (d : Node) (b : Addr) (e : Node) : Mem :=
  (m.setNode a d).setNode b e

section Pair

variable {a b : Addr} {d e : Node}

theorem Mem.pair_self (m : Mem) (a b : Addr) : m.pair a (m.node a) b (m.node b) = m := by
  simp [pair, setNode]

theorem Mem.node_right : (m.pair a d b e).node b = e := Function.update_self ..

theorem Mem.setNode_right {e' : Node} :
    (m.pair a d b e).setNode b e' = m.pair a d b e' := Mem.setNode_setNode ..

theorem Mem.node_other {n : Addr} (left : n ≠ a) (right : n ≠ b) :
    (m.pair a d b e).node n = m.node n := by
  rw [pair, setNode_node, Function.update_of_ne right, setNode_node, Function.update_of_ne left]

variable (ne : a ≠ b)

include ne

theorem Mem.node_left : (m.pair a d b e).node a = d := by
  rw [pair, setNode_node, Function.update_of_ne ne, setNode_node, Function.update_self]

theorem Mem.setNode_left {d' : Node} : (m.pair a d b e).setNode a d' = m.pair a d' b e := by
  simp only [pair, setNode, Function.update_comm ne, Function.update_idem]

theorem ends_memmoveKeys {start offset count : Nat} {Q : Unit → Mem → Prop}
    (room : offset + count ≤ capacity) :
    (memmoveKeys b offset a start count).Ends exec Q (m.pair a d b e) ↔
      Q () (m.pair a d b { e with keys := moved d.keys e.keys start offset count }) := by
  unfold memmoveKeys Program.Prog.assert
  rw [if_pos room]
  change Q () ((m.pair a d b e).setNode b _) ↔ _
  rw [Mem.setNode_right, Mem.node_left ne, Mem.node_right]

theorem ends_memmoveSlots {start offset count : Nat} {Q : Unit → Mem → Prop}
    (room : offset + count ≤ capacity) :
    (memmoveSlots b offset a start count).Ends exec Q (m.pair a d b e) ↔
      Q () (m.pair a d b { e with slots := moved d.slots e.slots start offset count }) := by
  unfold memmoveSlots Program.Prog.assert
  rw [if_pos room]
  change Q () ((m.pair a d b e).setNode b _) ↔ _
  rw [Mem.setNode_right, Mem.node_left ne, Mem.node_right]

theorem ends_splitKeys {start offset : Nat} {Q : Nat → Mem → Prop} (le : start ≤ d.numElts)
    (room : offset + (d.numElts - start) ≤ capacity) :
    (splitKeys a b start offset).Ends exec Q (m.pair a d b e) ↔
      Q (d.numElts - start) (m.pair a { d with numElts := start } b
        { e with
          keys := moved d.keys e.keys start offset (d.numElts - start)
          numElts := e.numElts + (d.numElts - start) }) := by
  unfold splitKeys storeNumElts addNumElts
  rw [Prog.ends_bind, ends_loadNumElts, Mem.node_left ne, Prog.ends_bind, Prog.ends_assert,
    and_iff_right le, Prog.ends_bind, ends_memmoveKeys ne room, Prog.ends_bind, ends_storeNode,
    Mem.node_left ne, Mem.setNode_left ne, Prog.ends_bind, ends_storeNode, Mem.node_right,
    Mem.setNode_right, Prog.ends_pure]

/-- A node gets what the other one has from a place on, behind what it has itself, and is linked
behind it. -/
theorem splitOff_ends {α : Type} {next : Prog α} {Q : α → Mem → Prop} {key : Key} {slot : Nat}
    {u v : List (Key × Nat)} (elems : (m.node a).Elems (u ++ v)) (blank : m.node b = Node.zero)
    (room : v.length < capacity)
    (goal : ∀ d e : Node, d.Elems u → d.level = (m.node a).level → d.nextHeader = key →
      d.next = b → e.Elems ((key, slot) :: v) → e.level = level →
      e.nextHeader = (m.node a).nextHeader → e.next = (m.node a).next →
        next.Ends exec Q (m.pair a d b e)) :
    Prog.Ends exec (do
      storeNextHeader b (← loadNextHeader a)
      storeNext b (← loadNext a)
      storeLevel b level
      insertSlot b 0 key slot
      let eltsMoved ← splitKeys a b u.length 1
      memmoveSlots b 1 a u.length eltsMoved
      storeNextHeader a (← loadKey b 0)
      storeNext a b
      next) Q m := by
  suffices h : Prog.Ends exec _ Q (m.pair a (m.node a) b (m.node b)) by rwa [Mem.pair_self] at h
  have count : (m.node a).numElts - u.length = v.length := by
    rw [elems.numElts, List.length_append, Nat.add_sub_cancel_left]
  unfold storeNextHeader storeNext storeLevel
  simp only [Prog.ends_bind, ends_loadNextHeader, ends_loadNext, ends_storeNode,
    Mem.node_left ne, Mem.node_right, Mem.setNode_right, blank]
  generalize made : (⟨(m.node a).next, (m.node a).nextHeader, Node.zero.numElts, level,
    Node.zero.keys, Node.zero.slots⟩ : Node) = e
  have zero : e.Elems [] := by
    subst made
    exact ⟨rfl, fun i lt => absurd lt (Nat.not_lt_zero i),
      fun i lt => absurd lt (Nat.not_lt_zero i)⟩
  have one : (e.insertSlot 0 key slot).Elems [(key, slot)] := zero.insertSlot (u := []) key slot
  have numZero : e.numElts = 0 := zero.numElts
  have some : 0 < capacity := by decide
  rw [ends_insertSlot (Nat.zero_le _) (by rw [Mem.node_right, numZero]; exact some),
    Mem.node_right, Mem.setNode_right]
  have le : u.length ≤ (m.node a).numElts := by
    rw [elems.numElts, List.length_append]
    exact Nat.le_add_right _ _
  rw [ends_splitKeys ne le (by omega), ends_memmoveSlots ne (by omega), ends_loadKey,
    Mem.node_right, Mem.setNode_left ne, Mem.node_left ne, Mem.setNode_left ne, Mem.node_left ne]
  subst made
  rw [count]
  -- what is moved stands behind the new key
  have both := one.append elems
  refine goal _ _ ⟨rfl, elems.take.keys, elems.take.slots⟩ rfl ?_ rfl both rfl rfl rfl
  exact both.keys 0 (Nat.succ_pos _)

end Pair

/-! ### The levels below -/

/-- The two memories differ in their lock words at most. -/
structure Mem.Same (m t : Mem) : Prop where
  node : t.node = m.node
  fresh : t.fresh = m.fresh
  itemNext : t.itemNext = m.itemNext
  output : t.output = m.output

theorem Mem.Same.refl (m : Mem) : m.Same m := ⟨rfl, rfl, rfl, rfl⟩

theorem Mem.Same.trans {m t u : Mem} (h : m.Same t) (h' : t.Same u) : m.Same u :=
  ⟨h'.node.trans h.node, h'.fresh.trans h.fresh, h'.itemNext.trans h.itemNext,
    h'.output.trans h.output⟩

theorem Mem.same_setCtrl (m : Mem) (n : Addr) (v : Hocc64) : m.Same (m.setCtrl n v) :=
  ⟨rfl, rfl, rfl, rfl⟩

/-- Along a level under write locks, one at a time. -/
theorem walkLocked_ends {turns : Nat} {Q : Addr → Mem → Prop} (pos : 0 < fuel)
    (linked : Linked m.node level (d :: rest)) (nodup : ((d :: rest).map Cell.addr).Nodup)
    (idle : ∀ c ∈ rest, Idle (m.ctrl c.addr)) (low : d.first ≤ key) (max : key < keyMax)
    (enough : rest.length < turns)
    (goal : ∀ front c back t, Cut key (d :: rest) front c back → m.Same t →
      (∀ a, a ≠ c.addr → a = d.addr ∨ Idle (m.ctrl a) → Idle (t.ctrl a)) → Q c.addr t) :
    (walkLocked fuel key turns d.addr).Ends exec Q m := by
  induction rest generalizing d m turns with
  | nil =>
    obtain ⟨turns, rfl⟩ := Nat.exists_eq_add_one.mpr enough
    have header : (m.node d.addr).nextHeader = keyMax := linked.1.nextHeader
    rw [walkLocked, Prog.ends_bind, ends_loadNextHeader, header, if_neg (Nat.not_le.mpr max)]
    exact goal [] d [] m ⟨rfl, low, max⟩ (.refl m) fun a ne h => h.resolve_left ne
  | cons c rest ih =>
    obtain ⟨turns, rfl⟩ := Nat.exists_eq_add_one.mpr (Nat.lt_of_le_of_lt (Nat.zero_le _) enough)
    have header : (m.node d.addr).nextHeader = c.first := linked.1.nextHeader
    have next : (m.node d.addr).next = c.addr := linked.1.next
    rw [walkLocked, Prog.ends_bind, ends_loadNextHeader, header]
    by_cases on : c.first ≤ key
    · -- the next node is locked before this one is released
      rw [if_pos on, Prog.ends_bind, ends_loadNext, next, Prog.ends_bind,
        ends_writeLock pos (idle c List.mem_cons_self), Prog.ends_bind, ends_writeUnlock]
      obtain ⟨other, rest'⟩ := List.nodup_cons.mp nodup
      have ne : c.addr ≠ d.addr := fun eq => other (by simp [eq])
      apply ih
      · exact linked.2
      · exact rest'
      · -- the nodes further on are still free
        intro b hb
        have neC : b.addr ≠ c.addr := fun eq =>
          (List.nodup_cons.mp rest').1 (eq ▸ List.mem_map_of_mem hb)
        have neD : b.addr ≠ d.addr := fun eq =>
          other (eq ▸ List.mem_map_of_mem (List.mem_cons_of_mem c hb))
        simp only [Mem.setCtrl_ctrl, Function.update_of_ne neC, Function.update_of_ne neD]
        exact idle b (List.mem_cons_of_mem c hb)
      · exact on
      · exact Nat.lt_of_succ_lt_succ enough
      · intro front c' back t cut same frees
        refine goal (d :: front) c' back t ⟨congrArg (d :: ·) cut.cells, cut.low, cut.high⟩
          (((m.same_setCtrl _ _).trans (Mem.same_setCtrl _ _ _)).trans same) fun a neA h => ?_
        apply frees a neA
        by_cases isC : a = c.addr
        · exact .inl isC
        · right
          rw [Mem.setCtrl_ctrl]
          by_cases isD : a = d.addr
          · rw [isD, Function.update_self]
            exact idle_hoccUnlocked _
          · rw [Function.update_of_ne isD, Mem.setCtrl_ctrl, Function.update_of_ne isC]
            exact h.resolve_left isD
    · -- the key lies in front of the next node
      rw [if_neg on]
      exact goal [] d (c :: rest) m ⟨rfl, low, Nat.lt_of_not_le on⟩ (.refl m)
        fun a ne h => h.resolve_left ne

/-- A node as the allocator leaves it is not one of a level. -/
theorem Linked.ne_blank {node : Addr → Node} {a : Addr} (h : Linked node level cells)
    (mem : c ∈ cells) (blank : node a = Node.zero) : c.addr ≠ a := by
  rintro rfl
  obtain ⟨after, held⟩ := h.held_of_mem mem
  have num := held.elems.numElts
  rw [blank] at num
  exact held.some (List.length_eq_zero_iff.mp num.symm)

/-- One cell of a level is replaced by two that begin as it does. -/
theorem Linked.two {node node' : Addr → Node} {c₁ c₂ : Cell}
    (h : Linked node level (front ++ c :: back)) (first : c₁.bound = c.bound)
    (same : ∀ d ∈ front ++ back, node' d.addr = node d.addr)
    (left : c₁.Held node' level c₂.bound) (right : c₂.Held node' level (link back)) :
    Linked node' level (front ++ c₁ :: c₂ :: back) := by
  have whole : front ++ c :: back = front ++ [c] ++ back := by simp
  rw [whole] at h
  have new : Linked node' level (front ++ [c₁, c₂] ++ back) :=
    h.replace (fun d hd => same d (List.mem_append_left _ hd)) first
    ⟨left, right, h.suffix.congr fun d hd => same d (List.mem_append_right _ hd)⟩
  simpa using new

/-- One cell of a level is replaced by one that begins as it does. -/
theorem Linked.one {node node' : Addr → Node} {c' : Cell}
    (h : Linked node level (front ++ c :: back)) (first : c'.bound = c.bound)
    (same : ∀ d ∈ front ++ back, node' d.addr = node d.addr)
    (here : c'.Held node' level (link back)) : Linked node' level (front ++ c' :: back) := by
  have whole : front ++ c :: back = front ++ [c] ++ back := by simp
  rw [whole] at h
  have new : Linked node' level (front ++ [c'] ++ back) :=
    h.replace (fun d hd => same d (List.mem_append_left _ hd)) first
    ⟨here, h.suffix.congr fun d hd => same d (List.mem_append_right _ hd)⟩
  simpa using new

theorem ends_unlockParent {α : Type} {next : Prog α} {Q : α → Mem → Prop} {parent : Addr}
    (goal : ∀ t, m.Same t →
      (∀ a, Idle (m.ctrl a) ∨ a = parent ∧ parent ≠ null → Idle (t.ctrl a)) → next.Ends exec Q t) :
    (if parent ≠ null then writeUnlock parent >>= fun _ => next else next).Ends exec Q m := by
  split
  · next some =>
    rw [Prog.ends_bind, ends_writeUnlock]
    refine goal _ (m.same_setCtrl _ _) fun a h => ?_
    rw [Mem.setCtrl_ctrl, Function.update_apply]
    split
    · exact idle_hoccUnlocked _
    · next other => exact h.resolve_right fun is => other is.1
  · next none => exact goal m (.refl m) fun a h => h.resolve_right fun is => none is.2

theorem insertSlot_of_level {α : Type} {k : Unit → Prog α} {n : Addr} {a b : Nat} :
    (if level > 0 then insertInternalSlot n 0 key a >>= k else insertLeafSlot n 0 key b >>= k) =
      insertSlot n 0 key (if level > 0 then a else b) >>= k := by
  split <;> rfl

/-- The new node of a level below that of the key. -/
def nodeAt (key : Key) (news : List Addr) (l : Nat) : Addr :=
  news.getD (levelForKey key - 1 - l) null

/-- What the key gets on a level: its value, or the new node of the level below. -/
def slotAt (key : Key) (value : Val) (news : List Addr) : Nat → Nat
  | 0 => value
  | l + 1 => nodeAt key news l

/-- The levels below `level`, of which `m` has `lv`, have got the key. -/
structure Below (key : Key) (value : Val) (news : List Addr) (lv : Levels) (level : Nat)
    (parent : Addr) (m t : Mem) : Prop where
  grown : ∀ l < level, ∃ cells', Grown key (slotAt key value news l) (· = nodeAt key news l)
    (lv l) cells' ∧ (key, nodeAt key news l) ∈ bounds cells' ∧ Linked t.node l cells'
  others : ∀ a, (∀ l < level, a ∉ (lv l).map Cell.addr ∧ a ≠ nodeAt key news l) →
    t.node a = m.node a
  idle : ∀ a, (Idle (m.ctrl a) ∨ level ≠ 0 ∧ a = parent ∧ parent ≠ null ∨
    ∃ l < level, a = nodeAt key news l) → Idle (t.ctrl a)
  fresh : t.fresh = m.fresh
  itemNext : t.itemNext = m.itemNext
  output : t.output = m.output

/-- What the insertion finds below a level. -/
structure Ready (key : Key) (news : List Addr) (lv : Levels) (level : Nat) (m : Mem) : Prop where
  stands : ∀ l < level, Stands m l (lv l)
  children : ∀ l, l + 1 < level → ∀ e ∈ flat (lv (l + 1)), e ∈ bounds (lv l)
  absent : ∀ l < level, key ∉ (flat (lv l)).map Prod.fst
  blank : ∀ l < level, m.node (nodeAt key news l) = Node.zero
  apart : ∀ l l', l < level → l' < level → nodeAt key news l = nodeAt key news l' → l = l'

section Ready

variable {news : List Addr} {value : Val} {parent : Addr} {t : Mem}

/-- What is known of a new node, and of a node of a level, before the key comes below. -/
theorem Ready.apart_nodes (ready : Ready key news lv level m) {l' : Nat} (lt : l < level)
    (lt' : l' < level) (hc : c ∈ lv l) :
    c.addr ≠ nodeAt key news l' ∧ (l ≠ l' → c.addr ∉ (lv l').map Cell.addr) := by
  have linked := (ready.stands l lt).linked
  refine ⟨linked.ne_blank hc (ready.blank l' lt'), fun ne mem => ?_⟩
  obtain ⟨d, hd, eq⟩ := List.mem_map.mp mem
  obtain ⟨after, held⟩ := linked.held_of_mem hc
  obtain ⟨after', held'⟩ := (ready.stands l' lt').linked.held_of_mem hd
  exact ne (held.level.symm.trans (eq ▸ held'.level))

/-- What is on the levels, and the new nodes, are as before. -/
theorem Ready.congr (ready : Ready key news lv level m)
    (levels : ∀ l < level, ∀ c ∈ lv l, t.node c.addr = m.node c.addr ∧
      (Idle (m.ctrl c.addr) → Idle (t.ctrl c.addr)))
    (blank : ∀ l < level, t.node (nodeAt key news l) = m.node (nodeAt key news l))
    (fresh : m.fresh ≤ t.fresh) : Ready key news lv level t where
  stands l lt := by
    have stands := ready.stands l lt
    refine ⟨stands.linked.congr fun c hc => (levels l lt c hc).1, stands.sorted, fun c hc => ?_,
      fun c hc => (levels l lt c hc).2 (stands.idle c hc)⟩
    have known := stands.known c hc
    exact ⟨known.1, Nat.lt_of_lt_of_le known.2 fresh⟩
  children := ready.children
  absent := ready.absent
  blank l lt := (blank l lt).trans (ready.blank l lt)
  apart := ready.apart

theorem Ready.pred (ready : Ready key news lv (level + 1) m) : Ready key news lv level m where
  stands l lt := ready.stands l (Nat.lt_succ_of_lt lt)
  children l lt := ready.children l (Nat.lt_succ_of_lt lt)
  absent l lt := ready.absent l (Nat.lt_succ_of_lt lt)
  blank l lt := ready.blank l (Nat.lt_succ_of_lt lt)
  apart l l' lt lt' := ready.apart l l' (Nat.lt_succ_of_lt lt) (Nat.lt_succ_of_lt lt')

/-- The levels further down after the step for one level. -/
theorem Ready.step (ready : Ready key news lv (level + 1) m)
    (others : ∀ a, a ∉ (lv level).map Cell.addr → a ≠ nodeAt key news level →
      t.node a = m.node a)
    (idle : ∀ a, a ∉ (lv level).map Cell.addr → Idle (m.ctrl a) → Idle (t.ctrl a))
    (fresh : m.fresh ≤ t.fresh) : Ready key news lv level t := by
  have here := Nat.lt_succ_self level
  apply ready.pred.congr _ _ fresh
  · intro l lt c hc
    have apart := ready.apart_nodes (Nat.lt_succ_of_lt lt) here hc
    have other := apart.2 (Nat.ne_of_lt lt)
    exact ⟨others _ other apart.1, idle _ other⟩
  · intro l lt
    have before := Nat.lt_succ_of_lt lt
    apply others
    · intro mem
      obtain ⟨c, hc, eq⟩ := List.mem_map.mp mem
      exact (ready.apart_nodes here before hc).1 eq
    · exact fun eq => Nat.ne_of_lt lt (ready.apart l level before here eq)

/-- The step for one level, and those for the levels further down. -/
theorem Below.step {t' : Mem} {a : Addr} {cells' : List Cell}
    (ready : Ready key news lv (level + 1) m)
    (grown : Grown key (slotAt key value news level) (· = nodeAt key news level) (lv level) cells')
    (bound : (key, nodeAt key news level) ∈ bounds cells') (linked : Linked t.node level cells')
    (others : ∀ a, a ∉ (lv level).map Cell.addr → a ≠ nodeAt key news level →
      t.node a = m.node a)
    (idle : ∀ b, Idle (m.ctrl b) ∨ b = parent ∧ parent ≠ null ∨ b = nodeAt key news level →
      Idle (t.ctrl b) ∨ level ≠ 0 ∧ b = a ∧ a ≠ null)
    (same : t.fresh = m.fresh ∧ t.itemNext = m.itemNext ∧ t.output = m.output)
    (rest : Below key value news lv level a t t') :
    Below key value news lv (level + 1) parent m t' where
  grown l lt := by
    rcases Nat.lt_succ_iff_lt_or_eq.mp lt with lt | rfl
    · exact rest.grown l lt
    · -- the level that has just been done is not touched below it
      refine ⟨cells', grown, bound, linked.congr fun c hc => rest.others _ fun l' lt' => ?_⟩
      have inside := Nat.lt_succ_of_lt lt'
      have here := Nat.lt_succ_self l
      rcases grown.addrs c hc with mem | is
      · obtain ⟨d, hd, eq⟩ := List.mem_map.mp mem
        rw [← eq]
        have apart := ready.apart_nodes here inside hd
        exact ⟨apart.2 (Nat.ne_of_gt lt'), apart.1⟩
      · rw [is]
        refine ⟨fun mem => ?_, fun eq => ?_⟩
        · obtain ⟨d, hd, eq⟩ := List.mem_map.mp mem
          exact (ready.apart_nodes inside here hd).1 eq
        · exact Nat.ne_of_gt lt' (ready.apart l l' here inside eq)
  others b h := by
    have here := h level (Nat.lt_succ_self level)
    rw [rest.others b fun l lt => h l (Nat.lt_succ_of_lt lt), others b here.1 here.2]
  idle b h := by
    -- a node that was free, the parent, or the one of the key on this level or below
    have before : (Idle (m.ctrl b) ∨ b = parent ∧ parent ≠ null ∨ b = nodeAt key news level) ∨
        ∃ l < level, b = nodeAt key news l := by
      rcases h with h | ⟨-, is⟩ | ⟨l, lt, is⟩
      · exact .inl (.inl h)
      · exact .inl (.inr (.inl is))
      · rcases Nat.lt_succ_iff_lt_or_eq.mp lt with lt | rfl
        · exact .inr ⟨l, lt, is⟩
        · exact .inl (.inr (.inr is))
    apply rest.idle b
    rcases before with h | new
    · exact (idle b h).imp_right .inl
    · exact .inr (.inr new)
  fresh := rest.fresh.trans same.1
  itemNext := rest.itemNext.trans same.2.1
  output := rest.output.trans same.2.2

/-- The new node of a level begins with the key and takes over what is behind it. -/
theorem Ready.splitOff_ends {α : Type} {next : Prog α} {Q : α → Mem → Prop} {m₀ : Mem}
    {u v : List (Key × Nat)} {e : Key × Nat} (ready : Ready key news lv (level + 1) m₀)
    (same : m₀.Same m) (cut : Cut key (lv level) front c back) (split : Split key c.entries u e v)
    (goal : ∀ t cells', Grown key (slotAt key value news level) (· = nodeAt key news level)
      (lv level) cells' → (key, nodeAt key news level) ∈ bounds cells' →
      Linked t.node level cells' →
      (∀ a, a ∉ (lv level).map Cell.addr → a ≠ nodeAt key news level → t.node a = m₀.node a) →
      (t.node c.addr).slots u.length = e.2 →
      (t.fresh = m₀.fresh ∧ t.itemNext = m₀.itemNext ∧ t.output = m₀.output) →
      t.ctrl = m.ctrl → next.Ends exec Q t) :
    Prog.Ends exec (do
      storeNextHeader (nodeAt key news level) (← loadNextHeader c.addr)
      storeNext (nodeAt key news level) (← loadNext c.addr)
      storeLevel (nodeAt key news level) level
      insertSlot (nodeAt key news level) 0 key (slotAt key value news level)
      let eltsMoved ← splitKeys c.addr (nodeAt key news level) (u.length + 1) 1
      memmoveSlots (nodeAt key news level) 1 c.addr (u.length + 1) eltsMoved
      storeNextHeader c.addr (← loadKey (nodeAt key news level) 0)
      storeNext c.addr (nodeAt key news level)
      next) Q m := by
  have here := Nat.lt_succ_self level
  have stands := ready.stands level here
  have hc : c ∈ lv level := by
    rw [cut.cells]
    simp
  have linked := stands.linked
  rw [cut.cells, ← same.node] at linked
  have held := linked.held
  have ne : c.addr ≠ nodeAt key news level := (ready.apart_nodes here here hc).1
  have few := held.few
  rw [split.entries, List.length_append, List.length_cons] at few
  have parts : c.entries = (u ++ [e]) ++ v := by
    rw [split.entries, List.append_assoc, List.singleton_append]
  have elems := held.elems
  rw [parts] at elems
  -- the key is not in the list, so the entry in front of it has another key
  have absent : e.1 ≠ key := fun is => ready.absent level here <|
    ((cut.split split stands.sorted stands.linked.some).mem_iff stands.sorted).mpr is
  have grown := cut.grown_split split stands.sorted stands.linked.some absent
    (slotAt key value news level) (nodeAt key news level)
  rw [show u.length + 1 = (u ++ [e]).length by simp]
  apply Bskiplist.splitOff_ends ne elems (by rw [same.node]; exact ready.blank level here)
    (by omega)
  intro l r left levelL headerL nextL right levelR headerR nextR
  have other : ∀ a, a ≠ c.addr → a ≠ nodeAt key news level →
      (m.pair c.addr l (nodeAt key news level) r).node a = m.node a :=
    fun a neC neN => Mem.node_other neC neN
  refine goal _ _ grown.1 grown.2 ?_ ?_ ?_ ⟨same.fresh, same.itemNext, same.output⟩ rfl
  · -- the two nodes are the only ones of the level that are stored to
    have nodup := stands.linked.nodup stands.sorted
    rw [cut.cells, List.map_append, List.map_cons, List.nodup_middle, List.nodup_cons,
      ← List.map_append] at nodup
    apply linked.two
    · rw [Cell.bound, Cell.bound, Cell.first, Cell.first, parts,
        firstKey_append (u := u ++ [e]) (by simp)]
    · intro d hd
      have mem : d ∈ lv level := by
        rw [cut.cells]
        exact List.mem_append.mpr ((List.mem_append.mp hd).imp_right (List.mem_cons_of_mem c))
      refine other _ (fun eq => nodup.1 (eq ▸ List.mem_map_of_mem hd)) ?_
      exact (ready.apart_nodes here here mem).1
    · exact ⟨Mem.node_left ne ▸ left, Mem.node_left ne ▸ levelL.trans held.level,
        Mem.node_left ne ▸ headerL, Mem.node_left ne ▸ nextL, by simp, by
          rw [List.length_append, List.length_singleton]
          omega⟩
    · exact ⟨Mem.node_right ▸ right, Mem.node_right ▸ levelR,
        Mem.node_right ▸ headerR.trans held.nextHeader, Mem.node_right ▸ nextR.trans held.next,
        List.cons_ne_nil _ _, by
          rw [List.length_cons]
          omega⟩
  · intro a neLevel neN
    rw [other a (fun eq => neLevel (eq ▸ List.mem_map_of_mem hc)) neN, same.node]
  · rw [Mem.node_left ne, left.slots u.length (by simp)]
    simp

/-- The lock of a node, the release of its parent, and the walk to the node of the key. -/
theorem Stands.walkLocked_ends {α : Type} {next : Addr → Prog α} {Q : α → Mem → Prop}
    {parent : Addr} (stands : Stands m level cells) (pos : 0 < fuel) (few : cells.length < fuel)
    (hd : d ∈ cells) (low : d.first ≤ key) (max : key < keyMax)
    (goal : ∀ front c back t, Cut key cells front c back → m.Same t →
      (∀ a, a ≠ c.addr → Idle (m.ctrl a) ∨ a = parent ∧ parent ≠ null → Idle (t.ctrl a)) →
      (next c.addr).Ends exec Q t) :
    Prog.Ends exec (do
      writeLock fuel d.addr
      if parent ≠ null then writeUnlock parent
      let curr ← walkLocked fuel key fuel d.addr
      next curr) Q m := by
  obtain ⟨front, rest, eq⟩ := List.append_of_mem hd
  have nodup := stands.linked.nodup stands.sorted
  rw [eq] at few nodup
  rw [List.map_append, List.nodup_append] at nodup
  rw [List.length_append, List.length_cons] at few
  -- the lock of `d` is not on the way
  have below : ∀ c ∈ rest, c.addr ≠ d.addr := by
    intro c hc eq
    rw [List.map_cons, List.nodup_cons] at nodup
    exact nodup.2.1.1 (eq ▸ List.mem_map_of_mem hc)
  have suffix : Stands m level (d :: rest) := by
    rw [eq] at stands
    exact stands.suffix
  rw [Prog.ends_bind, ends_writeLock pos (stands.idle d hd)]
  apply ends_unlockParent
  intro t₁ same₁ unlocked
  rw [Prog.ends_bind]
  have linked₁ : Linked t₁.node level (d :: rest) := by
    rw [same₁.node]
    exact suffix.linked
  apply Bskiplist.walkLocked_ends pos linked₁
  · exact nodup.2.1
  · intro c hc
    refine unlocked _ (.inl ?_)
    rw [Mem.setCtrl_ctrl, Function.update_of_ne (below c hc)]
    exact suffix.idle c (List.mem_cons_of_mem d hc)
  · exact low
  · exact max
  · omega
  intro front' c back t₂ cut same₂ frees
  refine goal (front ++ front') c back t₂
    ⟨by rw [eq, cut.cells, List.append_assoc], cut.low, cut.high⟩
    (((m.same_setCtrl _ _).trans same₁).trans same₂) fun a neC was => frees a neC ?_
  -- `d` is the node that the walk starts from with its lock
  by_cases isD : a = d.addr
  · exact .inl isD
  · refine .inr (unlocked a ?_)
    rw [Mem.setCtrl_ctrl, Function.update_of_ne isD]
    exact was

/-- All levels below that of the key get the key, each in a new node. -/
theorem Ready.insertBelow_ends (ready : Ready key news lv level m) (value : Val) (parent : Addr)
    (max : key < keyMax)
    (fueled : Fueled fuel lv) (le : level ≤ levelForKey key) {curr : Addr}
    (start : level ≠ 0 → ∃ d ∈ lv (level - 1), d.first ≤ key ∧ d.addr = curr) :
    (insertBelow fuel key value news level (levelForKey key - level) curr parent).Ends exec
      (fun _ t => Below key value news lv level parent m t) m := by
  induction level generalizing m curr parent with
  | zero =>
    rw [insertBelow, Prog.ends_assert]
    refine ⟨rfl, fun l lt => absurd lt (Nat.not_lt_zero l), fun a _ => rfl, ?_, rfl, rfl, rfl⟩
    rintro a (idle | ⟨never, -⟩ | ⟨l, lt, -⟩)
    · exact idle
    · exact absurd rfl never
    · exact absurd lt (Nat.not_lt_zero l)
  | succ level ih =>
    have lt := levelForKey_lt key
    have pos : 0 < fuel := Nat.lt_of_le_of_lt (Nat.zero_le _) fueled.levels
    have here := Nat.lt_succ_self level
    have stands := ready.stands level here
    obtain ⟨d, hd, low, rfl⟩ := start (Nat.succ_ne_zero level)
    rw [insertBelow]
    apply stands.walkLocked_ends pos (fueled.nodes level (by omega)) hd low max
    intro front c back t₂ whole same frees
    have hc : c ∈ lv level := by
      rw [whole.cells]
      simp
    have held : c.Held t₂.node level (link back) := by
      rw [same.node]
      exact (whole.cells ▸ stands.linked).held
    rw [Prog.ends_bind, ends_loadNumElts]
    rw [held.elems.numElts, Prog.ends_bind]
    apply held.elems.findRankLinear_ends
    · exact stands.sorted.entries hc
    · exact held.some
    · exact whole.low
    intro u e v split
    have new : news.getD (levelForKey key - (level + 1)) null = nodeAt key news level := by
      rw [nodeAt, Nat.sub_add_eq, Nat.sub_right_comm]
    have slot : (if level > 0 then news.getD (levelForKey key - (level + 1) + 1) null else value) =
        slotAt key value news level := by
      cases level with
      | zero => rfl
      | succ l =>
        rw [if_pos (Nat.succ_pos l), slotAt, nodeAt]
        congr 1
        omega
    have num : levelForKey key - (level + 1) + 1 = levelForKey key - level := by omega
    rw [Prog.ends_bind, Prog.ends_assert]
    refine ⟨le, ?_⟩
    dsimp only
    rw [insertSlot_of_level, new, slot, num]
    apply ready.splitOff_ends same whole split
    intro t₃ cells' grown bound linked others down kept ctrl
    rw [Prog.ends_bind, ends_writeUnlock]
    -- the node of the key and all but `c` are free
    have free : ∀ a, a ≠ c.addr →
        (Idle (m.ctrl a) ∨ a = parent ∧ parent ≠ null ∨ a = nodeAt key news level) →
        Idle ((t₃.setCtrl (nodeAt key news level)
          (hoccUnlocked (t₃.ctrl (nodeAt key news level)))).ctrl a) := by
      intro a neC was
      rw [Mem.setCtrl_ctrl, Function.update_apply]
      split
      · exact idle_hoccUnlocked _
      · next neN =>
        rw [ctrl]
        exact frees a neC (was.imp_right fun is => is.resolve_right neN)
    -- what is done on the levels further down, after this one
    have rest : ∀ t a curr, (t₃.setCtrl (nodeAt key news level)
        (hoccUnlocked (t₃.ctrl (nodeAt key news level)))).Same t →
        (level ≠ 0 → a = c.addr) →
        (∀ b, Idle (m.ctrl b) ∨ b = parent ∧ parent ≠ null ∨ b = nodeAt key news level →
          Idle (t.ctrl b) ∨ level ≠ 0 ∧ b = a) →
        (level ≠ 0 → ∃ d ∈ lv (level - 1), d.first ≤ key ∧ d.addr = curr) →
        (insertBelow fuel key value news level (levelForKey key - level) curr a).Ends exec
          (fun _ t => Below key value news lv (level + 1) parent m t) t := by
      intro t a curr same₄ isC idle start
      have others' : ∀ b, b ∉ (lv level).map Cell.addr → b ≠ nodeAt key news level →
          t.node b = m.node b := by
        intro b neLevel neN
        rw [same₄.node]
        exact others b neLevel neN
      have ready' : Ready key news lv level t := by
        refine ready.step others' (fun b neLevel was => ?_) (same₄.fresh.trans kept.1).ge
        rcases idle b (.inl was) with now | ⟨pos, is⟩
        · exact now
        · rw [is, isC pos] at neLevel
          exact absurd (List.mem_map_of_mem hc) neLevel
      apply (ih ready' _ (Nat.le_of_succ_le le) start).mono
      intro _ t' below
      refine .step ready grown bound ?_ others' (fun b was => ?_) ?_ below
      · rw [same₄.node]
        exact linked
      · refine (idle b was).imp_right fun is => ⟨is.1, is.2, ?_⟩
        rw [isC is.1]
        exact (stands.known c hc).1
      · exact ⟨same₄.fresh.trans kept.1, same₄.itemNext.trans kept.2.1,
          same₄.output.trans kept.2.2⟩
    cases level with
    | zero =>
      -- a leaf: its lock is given up, and nothing is below
      rw [if_neg (Nat.lt_irrefl 0), Prog.ends_bind, ends_writeUnlock]
      apply rest
      · exact Mem.same_setCtrl _ _ _
      · exact fun never => absurd rfl never
      · intro b was
        left
        rw [Mem.setCtrl_ctrl, Function.update_apply]
        split
        · exact idle_hoccUnlocked _
        · next neC => exact free b neC was
      · exact fun never => absurd rfl never
    | succ l =>
      -- the lock of `c` is kept until the node below is locked
      rw [if_pos (Nat.succ_pos l), Prog.ends_bind, ends_loadSlot, Mem.setCtrl_node, down]
      apply rest
      · exact .refl _
      · exact fun _ => rfl
      · intro b was
        by_cases isC : b = c.addr
        · exact .inr ⟨Nat.succ_ne_zero l, isC⟩
        · exact .inl (free b isC was)
      · intro _
        have elem : e ∈ flat (lv (l + 1)) := by
          refine mem_flat.mpr ⟨c, hc, ?_⟩
          rw [split.entries]
          simp
        obtain ⟨d', hd', first, addr⟩ := mem_bounds.mp (ready.children l here e elem)
        exact ⟨d', hd', first ▸ split.low, addr⟩

end Ready

end DBx1000.Bskiplist
