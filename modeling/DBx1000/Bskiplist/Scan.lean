import DBx1000.Bskiplist.Insert

/-!
# Scans

`bsl_scan_n` and `bsl_scan_n_batch` on a well formed list, run alone: they deliver the pairs from
the start on, up to the length, and leave the nodes and their lock words as they were.

## Proof strategy

`Delivers` is what the two scans ask of their callback, so one proof serves both. The walk along the
leaves is an induction on those that are left.
-/

namespace DBx1000.Bskiplist

open Program Hocc

variable {m : Mem} {list : Bsl} {lv : Levels} {level fuel : Nat} {start : Key}
  {cells front rest back : List Cell} {c d : Cell} {u v : List (Key × Nat)} {e : Key × Nat}
  {deliver : Addr → Nat → Nat → Prog Unit}

/-! ### The callbacks -/

/-- The memory after callbacks with these batches. -/
def Mem.delivered (m : Mem) (batches : List (List (Key × Val))) : Mem :=
  { m with output := m.output ++ batches }

/-- The callbacks get these elements of the leaf, in one or more batches. -/
def Delivers (deliver : Addr → Nat → Nat → Prog Unit) : Prop :=
  ∀ (m : Mem) (leaf : Addr) (rank count : Nat) (es : List (Key × Nat)) (Q : Unit → Mem → Prop),
    (m.node leaf).Elems es → rank + count ≤ es.length →
    (∀ batches, batches.flatten = (es.drop rank).take count → Q () (m.delivered batches)) →
    (deliver leaf rank count).Ends exec Q m

theorem take_drop_succ {es : List (Key × Nat)} {rank count : Nat} (lt : rank < es.length) :
    (es.drop rank).take (count + 1) = es[rank] :: (es.drop (rank + 1)).take count := by
  rw [List.drop_eq_getElem_cons lt, List.take_succ_cons]

theorem delivers_each : Delivers deliverEach := by
  intro m leaf rank count es Q elems fits goal
  induction count generalizing m rank Q with
  | zero =>
    have none := goal [] rfl
    rwa [Mem.delivered, List.append_nil] at none
  | succ count ih =>
    have lt : rank < es.length := by omega
    rw [deliverEach, Prog.ends_bind, ends_loadKey, elems.keys rank lt, Prog.ends_bind,
      ends_loadSlot, elems.slots rank lt]
    change Prog.Ends exec (deliverEach leaf (rank + 1) count) Q (m.delivered [[es[rank]]])
    apply ih
    · exact elems
    · omega
    · intro batches eq
      have more := goal ([es[rank]] :: batches) (by
        rw [List.flatten_cons, eq, take_drop_succ lt, List.singleton_append])
      rw [Mem.delivered] at more ⊢
      simpa [Mem.delivered] using more

theorem readRange_ends {leaf : Addr} {rank count : Nat} {es : List (Key × Nat)}
    {Q : List (Key × Val) → Mem → Prop} (elems : (m.node leaf).Elems es)
    (fits : rank + count ≤ es.length) (goal : Q ((es.drop rank).take count) m) :
    (readRange leaf rank count).Ends exec Q m := by
  induction count generalizing rank Q with
  | zero => exact goal
  | succ count ih =>
    have lt : rank < es.length := by omega
    rw [readRange, Prog.ends_bind, ends_loadKey, elems.keys rank lt, Prog.ends_bind, ends_loadSlot,
      elems.slots rank lt, Prog.ends_bind]
    apply ih (by omega)
    rw [take_drop_succ lt] at goal
    exact goal

theorem delivers_batch : Delivers deliverBatch := by
  intro m leaf rank count es Q elems fits goal
  refine Prog.ends_bind.mpr ?_
  apply readRange_ends elems fits
  exact goal [_] (by rw [List.flatten_cons, List.flatten_nil, List.append_nil])

/-! ### Along the leaves -/

/-- The memory with one more reader of a node. -/
def Mem.reading (m : Mem) (n : Addr) : Mem := m.setCtrl n (m.ctrl n + hoccReaderUnit)

theorem ends_leave {n : Addr} {Q : Unit → Mem → Prop} :
    (readUnlock n).Ends exec Q (m.reading n) ↔ Q () m := by
  rw [ends_readUnlock, Mem.reading, Mem.setCtrl_setCtrl, Mem.setCtrl_ctrl, Function.update_self,
    BitVec.add_sub_cancel, Mem.setCtrl_self]

/-- Read locks from a node to the next one. -/
theorem ends_readNext {α : Type} {next : Prog α} {a b : Addr} {Q : α → Mem → Prop} (ne : a ≠ b) :
    Prog.Ends exec (readUnlock a >>= fun _ => next) Q
        ((m.reading a).setCtrl b ((m.reading a).ctrl b + hoccReaderUnit)) ↔
      next.Ends exec Q (m.reading b) := by
  have other : (m.reading a).ctrl b = m.ctrl b := Function.update_of_ne ne.symm ..
  have swap : (m.reading a).setCtrl b (m.ctrl b + hoccReaderUnit) = (m.reading b).reading a := by
    rw [Mem.reading, Mem.reading, Mem.reading, Mem.setCtrl_ctrl, Function.update_of_ne ne]
    simp only [Mem.setCtrl, Function.update_comm ne.symm]
  rw [other, swap, Prog.ends_bind, ends_leave]

/-- The next leaf is another node, and is idle while this one is read. -/
theorem Stands.next_idle (stands : Stands m level (c :: d :: back)) :
    c.addr ≠ d.addr ∧ Idle ((m.reading c.addr).ctrl d.addr) := by
  have nodup := stands.linked.nodup stands.sorted
  have ne : c.addr ≠ d.addr := fun same => (List.nodup_cons.mp nodup).1 (by simp [same])
  refine ⟨ne, ?_⟩
  rw [Mem.reading, Mem.setCtrl_ctrl, Function.update_of_ne ne.symm]
  exact stands.idle d (by simp)

/-- One turn of the loop, up to the move to the next leaf. -/
theorem scanLeaves_turn {turns rank remaining : Nat} {Q : Option (Nat × Key) → Mem → Prop}
    (delivers : Delivers deliver) (elems : (m.node c.addr).Elems c.entries)
    (le : rank ≤ c.entries.length) (left : 0 < remaining)
    (goal : ∀ batches start', batches.flatten = (c.entries.drop rank).take remaining →
      Prog.Ends exec (do
        let next ← loadNext c.addr
        if next = null ∨ remaining - min remaining (c.entries.length - rank) = 0 then
          readUnlock c.addr
          return none
        if ← readTrylock next fuel then
          readUnlock c.addr
          scanLeaves fuel deliver turns next 0 (remaining - min remaining (c.entries.length - rank))
            start'
        else
          readUnlock c.addr
          return some (remaining - min remaining (c.entries.length - rank), start')) Q
        ((m.delivered batches).reading c.addr)) :
    (scanLeaves fuel deliver (turns + 1) c.addr rank remaining start).Ends exec Q
      (m.reading c.addr) := by
  have elems' : ((m.reading c.addr).node c.addr).Elems c.entries := elems
  rw [scanLeaves, if_neg (Nat.ne_of_gt left), Prog.ends_bind, ends_loadNumElts, elems'.numElts]
  dsimp only
  -- the callback gets what the leaf has left, up to the length
  by_cases more : min remaining (c.entries.length - rank) > 0
  · rw [if_pos more, Prog.ends_bind]
    apply delivers _ _ _ _ c.entries _ elems' (by omega)
    intro batches eq
    rw [Prog.ends_bind, ends_loadKey]
    refine goal batches _ (eq.trans ?_)
    rw [List.take_eq_take_iff, List.length_drop]
    omega
  · rw [if_neg more]
    have none : min remaining (c.entries.length - rank) = 0 := Nat.eq_zero_of_not_pos more
    have last : c.entries.drop rank = [] := List.drop_of_length_le (by omega)
    have same := goal [] start (by rw [last, List.take_nil, List.flatten_nil])
    rw [none, Nat.sub_zero, Mem.delivered, List.append_nil] at same
    exact same

/-- From a rank of a locked leaf on, over the leaves behind it. -/
theorem scanLeaves_ends {turns rank remaining : Nat} {Q : Option (Nat × Key) → Mem → Prop}
    (delivers : Delivers deliver) (pos : 0 < fuel) (stands : Stands m 0 (c :: back))
    (le : rank ≤ c.entries.length) (left : 0 < remaining) (enough : back.length < turns)
    (goal : ∀ batches, batches.flatten = (c.entries.drop rank ++ flat back).take remaining →
      Q none (m.delivered batches)) :
    (scanLeaves fuel deliver turns c.addr rank remaining start).Ends exec Q (m.reading c.addr) := by
  induction back generalizing m c rank remaining start turns with
  | nil =>
    obtain ⟨turns, rfl⟩ := Nat.exists_eq_add_one.mpr enough
    have held := stands.head
    apply scanLeaves_turn delivers held.elems le left
    intro batches start' eq
    have last : (((m.delivered batches).reading c.addr).node c.addr).next = null := held.next
    rw [Prog.ends_bind, ends_loadNext, last, if_pos (.inl rfl), Prog.ends_bind, ends_leave]
    exact goal batches (eq.trans (by rw [show flat [] = [] from rfl, List.append_nil]))
  | cons d back ih =>
    obtain ⟨turns, rfl⟩ := Nat.exists_eq_add_one.mpr (Nat.lt_of_le_of_lt (Nat.zero_le _) enough)
    have held := stands.head
    have someD := (stands.known d (by simp)).1
    apply scanLeaves_turn delivers held.elems le left
    intro batches start' eq
    have next : (((m.delivered batches).reading c.addr).node c.addr).next = d.addr := held.next
    rw [Prog.ends_bind, ends_loadNext, next]
    -- the length has been reached, or the scan goes to the next leaf
    by_cases all : remaining - min remaining (c.entries.length - rank) = 0
    · rw [if_pos (.inr all), Prog.ends_bind, ends_leave]
      refine goal batches (eq.trans ?_)
      rw [List.take_append_of_le_length]
      rw [List.length_drop]
      omega
    · obtain ⟨ne, unread⟩ := stands.next_idle
      -- the callback leaves the lock words as they are
      have idle : Idle (((m.delivered batches).reading c.addr).ctrl d.addr) := unread
      rw [if_neg (by rw [not_or]; exact ⟨someD, all⟩), Prog.ends_bind, ends_readTrylock pos idle,
        if_pos rfl, ends_readNext ne]
      have rest : Stands (m.delivered batches) 0 (d :: back) := by
        have suffix := stands.tail
        exact ⟨suffix.linked, suffix.sorted, suffix.known, suffix.idle⟩
      apply ih rest (Nat.zero_le _) (Nat.pos_of_ne_zero all) (Nat.lt_of_succ_lt_succ enough)
      intro batches' eq'
      have taken : remaining - min remaining (c.entries.length - rank) =
          remaining - (c.entries.drop rank).length := by
        rw [List.length_drop]
        omega
      have both := goal (batches ++ batches') (by
        rw [List.flatten_append, eq, eq', List.drop_zero, flat_cons, taken, ← List.take_append])
      rwa [Mem.delivered, Mem.delivered, List.append_assoc]

/-- Along the leaves under read locks, to the one of the start. -/
theorem readWalk_ends {turns : Nat} {Q : Addr → Mem → Prop} (pos : 0 < fuel)
    (stands : Stands m 0 (d :: rest)) (low : d.first ≤ start) (max : start < keyMax)
    (enough : rest.length < turns)
    (goal : ∀ front c back, Cut start (d :: rest) front c back → Q c.addr (m.reading c.addr)) :
    (readWalk fuel start turns d.addr).Ends exec Q (m.reading d.addr) := by
  induction rest generalizing d turns with
  | nil =>
    obtain ⟨turns, rfl⟩ := Nat.exists_eq_add_one.mpr enough
    have header : ((m.reading d.addr).node d.addr).nextHeader = keyMax := stands.linked.1.nextHeader
    rw [readWalk, Prog.ends_bind, ends_loadNextHeader, header, if_neg (Nat.not_le.mpr max)]
    exact goal [] d [] ⟨rfl, low, max⟩
  | cons c rest ih =>
    obtain ⟨turns, rfl⟩ := Nat.exists_eq_add_one.mpr (Nat.lt_of_le_of_lt (Nat.zero_le _) enough)
    have header : ((m.reading d.addr).node d.addr).nextHeader = c.first :=
      stands.linked.1.nextHeader
    have next : ((m.reading d.addr).node d.addr).next = c.addr := stands.linked.1.next
    rw [readWalk, Prog.ends_bind, ends_loadNextHeader, header]
    -- the walk ends before the first leaf that begins behind the start
    by_cases on : c.first ≤ start
    · obtain ⟨ne, idle⟩ := stands.next_idle
      rw [if_pos on, Prog.ends_bind, ends_loadNext, next, Prog.ends_bind, ends_readLock pos idle,
        ends_readNext ne]
      apply ih stands.tail on (Nat.lt_of_succ_lt_succ enough)
      intro front c' back cut
      exact goal (d :: front) c' back ⟨congrArg (d :: ·) cut.cells, cut.low, cut.high⟩
    · rw [if_neg on]
      exact goal [] d (c :: rest) ⟨rfl, low, Nat.lt_of_not_le on⟩

/-- The pairs from the start on, by the place of the start among the elements. -/
theorem since_of_split {p q : List (Key × Nat)} {slot : Nat} {pairs : List (Key × Val)}
    {es : List (Key × Nat)} (split : Split start es p e q) (sorted : Increasing es)
    (flats : es = (keyMin, slot) :: pairs) :
    Assoc.since start pairs = if e.1 ≠ start ∨ p = [] then q else e :: q := by
  have after : q.filter (start ≤ ·.1) = q :=
    List.filter_eq_self.mpr fun x hx => decide_eq_true (Nat.le_of_lt (split.high x hx))
  have entries := split.entries
  -- the first element of all is the sentinel, which is no pair
  cases p with
  | nil =>
    rw [if_pos (.inr rfl), Assoc.since]
    rw [flats, List.nil_append] at entries
    rw [(List.cons.inj entries).2, after]
  | cons x p =>
    have whole := entries
    rw [flats, List.cons_append] at whole
    rw [entries, List.cons_append] at sorted
    have rest : Assoc.Ascending (p ++ e :: q) := (List.pairwise_cons.mp sorted).2
    have before : p.filter (start ≤ ·.1) = [] := List.filter_eq_nil_iff.mpr fun x hx => by
      have lt := Nat.lt_of_lt_of_le (rest.around.1 x hx) split.low
      simpa using lt
    rw [Assoc.since, (List.cons.inj whole).2, List.filter_append, before, List.nil_append,
      List.filter_cons, after]
    by_cases here : e.1 = start
    · rw [if_pos (decide_eq_true (Nat.le_of_eq here.symm)),
        if_neg (by rw [not_or]; exact ⟨not_not.mpr here, List.cons_ne_nil _ _⟩)]
    · have lt : e.1 < start := Nat.lt_of_le_of_ne split.low here
      rw [if_neg (by simpa using lt), if_pos (.inl here)]

/-- The sentinel is the first element of the first leaf, and no other leaf has its key. -/
theorem HasLevels.sentinel_iff (h : HasLevels list lv m) {slot : Nat} {pairs q : List (Key × Nat)}
    (flats : flat (lv 0) = (keyMin, slot) :: pairs) (cells : lv 0 = front ++ c :: back)
    (place : Split start (flat (lv 0)) (flat front ++ u) e q) :
    (e.1 ≠ start ∨ start = keyMin ∧ c.addr = list 0) ↔ (e.1 ≠ start ∨ flat front ++ u = []) := by
  have stands := h.stands 0 (by decide)
  constructor
  · rintro (ne | ⟨isMin, -⟩)
    · exact .inl ne
    · -- what stands before would have a smaller key
      refine .inr (List.eq_nil_iff_forall_not_mem.mpr fun x hx => ?_)
      have sorted := stands.sorted
      rw [place.entries] at sorted
      have lt := Nat.lt_of_lt_of_le (sorted.around.1 x hx) place.low
      rw [isMin] at lt
      exact Nat.not_lt_zero _ lt
  · rintro (ne | none)
    · exact .inl ne
    · by_cases here : e.1 = start
      · obtain ⟨noFront, -⟩ := List.append_eq_nil_iff.mp none
        have entries := place.entries
        rw [none, flats] at entries
        have isMin : start = keyMin := by
          rw [← here, ← (List.cons.inj entries).1]
        -- no leaf stands before, for a leaf has elements
        have alone : front = [] := by
          cases front with
          | nil => rfl
          | cons x xs =>
            rw [flat_cons] at noFront
            have mem : x ∈ lv 0 := by
              rw [cells]
              exact List.mem_cons_self
            exact absurd (List.append_eq_nil_iff.mp noFront).1 (stands.linked.some x mem)
        obtain ⟨d, rest, eq, -, addr⟩ := h.head (l := 0) (by decide)
        rw [cells, alone, List.nil_append] at eq
        exact .inr ⟨isMin, (List.cons.inj eq).1 ▸ addr⟩
      · exact .inl here

/-- A scan at its first attempt. -/
theorem HasLevels.scanOnce_ends (h : HasLevels list lv m) (fueled : Fueled fuel lv)
    (max : start < keyMax) (delivers : Delivers deliver) {slot : Nat} {pairs : List (Key × Val)}
    (flats : flat (lv 0) = (keyMin, slot) :: pairs) {length : Nat} (some : 0 < length)
    {Q : Option (Nat × Key) → Mem → Prop}
    (goal : ∀ batches, batches.flatten = (Assoc.since start pairs).take length →
      Q none (m.delivered batches)) :
    (scanOnce fuel list (scanTraversal fuel list start) deliver length start).Ends exec Q m := by
  have pos : 0 < fuel := Nat.lt_of_le_of_lt (Nat.zero_le _) fueled.levels
  have stands := h.stands 0 (by decide)
  rw [scanOnce, Prog.ends_bind]
  apply h.scanTraversal_ends fueled max
  intro d hd low
  obtain ⟨front, rest, cells⟩ := List.append_of_mem hd
  have few := fueled.nodes 0 (by decide)
  rw [cells, List.length_append, List.length_cons] at few
  have suffix : Stands m 0 (d :: rest) := by
    rw [cells] at stands
    exact stands.suffix
  change Prog.Ends exec (readWalk fuel start fuel d.addr >>= _) _ (m.reading d.addr)
  rw [Prog.ends_bind]
  -- along the leaves to the one where the start lies
  apply readWalk_ends pos suffix low max (by omega)
  intro front' c back cut
  have whole : Cut start (lv 0) (front ++ front') c back :=
    ⟨by rw [cells, cut.cells, List.append_assoc], cut.low, cut.high⟩
  have hc : c ∈ lv 0 := by
    rw [whole.cells]
    simp
  have linked := stands.linked
  have standsC : Stands m 0 (c :: back) := by
    rw [whole.cells] at stands
    exact stands.suffix
  have held := standsC.head
  have elems : ((m.reading c.addr).node c.addr).Elems c.entries := held.elems
  rw [Prog.ends_bind, ends_loadNumElts, elems.numElts, Prog.ends_bind]
  -- and in it to the last key that is not above the start
  apply elems.findRank_ends (stands.sorted.entries hc) held.some cut.low
  intro u e v split
  have place := whole.split split stands.sorted linked.some
  rw [Prog.ends_bind, ends_loadKey, (elems.at_split split).1]
  have since := since_of_split place stands.sorted flats
  have lenV : c.entries.length = u.length + 1 + v.length := by
    rw [split.entries, List.length_append, List.length_cons]
    omega
  have enough : back.length < fuel := by
    rw [whole.cells] at cells
    have same := congrArg List.length cells
    simp only [List.length_append, List.length_cons] at same
    omega
  have dropV : c.entries.drop (u.length + 1) = v := by
    rw [split.entries, List.drop_append, List.drop_of_length_le (Nat.le_succ _), List.nil_append,
      Nat.add_sub_cancel_left, List.drop_succ_cons, List.drop_zero]
  have dropU : c.entries.drop u.length = e :: v := by
    rw [split.entries, List.drop_left]
  have sentinel := h.sentinel_iff flats whole.cells place
  by_cases behind : e.1 ≠ start ∨ start = keyMin ∧ c.addr = list 0
  · rw [if_pos behind]
    rw [if_pos (sentinel.mp behind)] at since
    rw [since] at goal
    -- the rest of the leaf is empty, so the scan begins with the next one
    by_cases last : u.length + 1 = c.entries.length
    · rw [if_pos last]
      have none : v = [] := List.length_eq_zero_iff.mp (by omega)
      subst none
      cases back with
      | nil =>
        have next : ((m.reading c.addr).node c.addr).next = null := held.next
        rw [Prog.ends_bind, ends_loadNext, next, if_pos rfl, Prog.ends_bind, ends_leave]
        have nothing := goal [] (by
          rw [List.nil_append, show flat [] = [] from rfl, List.take_nil, List.flatten_nil])
        rwa [Mem.delivered, List.append_nil] at nothing
      | cons b back =>
        have next : ((m.reading c.addr).node c.addr).next = b.addr := held.next
        obtain ⟨ne, idle⟩ := standsC.next_idle
        rw [Prog.ends_bind, ends_loadNext, next, if_neg (standsC.known b (by simp)).1,
          Prog.ends_bind, ends_readTrylock pos idle, if_pos rfl, ends_readNext ne]
        apply scanLeaves_ends delivers pos standsC.tail (Nat.zero_le _) some
          (Nat.lt_of_succ_lt enough)
        rw [List.drop_zero]
        rw [List.nil_append, flat_cons] at goal
        exact goal
    · rw [if_neg last]
      apply scanLeaves_ends delivers pos standsC (by omega) some enough
      rw [dropV]
      exact goal
  · rw [if_neg behind]
    rw [if_neg (sentinel.not.mp behind)] at since
    rw [since] at goal
    apply scanLeaves_ends delivers pos standsC (by omega) some enough
    rw [dropU]
    exact goal

/-! ### The operations -/

theorem HasLevels.delivered (h : HasLevels list lv m) (batches : List (List (Key × Val))) :
    HasLevels list lv (m.delivered batches) :=
  h.congr (fun _ _ => ⟨rfl, id⟩) (Nat.le_refl _)

/-- A scan at its first attempt, which is also its last one. -/
theorem scanFirst_ends {s : Store} (h : Represents list s m) (enough : Enough fuel s)
    (max : start < keyMax) (delivers : Delivers deliver) {length : Nat} (some : 0 < length) :
    (scanOnce fuel list (scanTraversal fuel list start) deliver length start).Ends exec
      (fun r t => r = none ∧ Represents list (s.scan start length).2 t) m := by
  obtain ⟨⟨lv, has, flats⟩, items, output⟩ := h
  have fueled : Fueled fuel lv := has.fueled enough.1 (by
    rw [flats]
    exact enough.2)
  apply has.scanOnce_ends fueled max delivers flats some
  intro batches eq
  refine ⟨rfl, ⟨lv, has.delivered batches, flats⟩, items, ?_⟩
  rw [Mem.delivered, List.flatten_append, output, eq]
  rfl

/-- A scan, run alone, does what the store says. -/
theorem scan_ends {s : Store} (h : Represents list s m) (enough : Enough fuel s) {length : Nat}
    (allowed : start < keyMax ∨ length = 0) (delivers : Delivers deliver) :
    (if length = 0 then pure () else scanRetry (fun remaining start =>
      scanOnce fuel list (scanTraversal fuel list start) deliver remaining start) fuel length
        start : Prog Unit).Ends exec
      (fun _ t => Represents list (s.scan start length).2 t) m := by
  by_cases none : length = 0
  · rw [if_pos none]
    refine ⟨h.levels, h.itemNext, ?_⟩
    rw [Store.scan, none, List.take_zero, List.append_nil]
    exact h.output
  · obtain ⟨fuel', eq⟩ := Nat.exists_eq_add_one.mpr (Nat.lt_of_le_of_lt (Nat.zero_le _) enough.1)
    have first := scanFirst_ends h enough (allowed.resolve_right none) delivers
      (Nat.pos_of_ne_zero none)
    rw [if_neg none]
    nth_rewrite 3 [eq]
    -- alone, the first try ends
    rw [scanRetry, Prog.ends_bind]
    apply first.mono
    rintro - t ⟨rfl, done⟩
    exact done

theorem bslScanN_ends {s : Store} (h : Represents list s m) (enough : Enough fuel s) {length : Nat}
    (allowed : start < keyMax ∨ length = 0) :
    (bslScanN fuel list start length).Ends exec
      (fun _ t => Represents list (s.scan start length).2 t) m :=
  scan_ends h enough allowed delivers_each

theorem bslScanNBatch_ends {s : Store} (h : Represents list s m) (enough : Enough fuel s)
    {length : Nat} (allowed : start < keyMax ∨ length = 0) :
    (bslScanNBatch fuel list start length).Ends exec
      (fun _ t => Represents list (s.scan start length).2 t) m :=
  scan_ends h enough allowed delivers_batch

/-- A search at its first attempt. -/
theorem getFirst_ends {s : Store} {key : Key} (h : Represents list s m) (enough : Enough fuel s)
    (proper : Proper key) :
    (getTraversal fuel list key).Ends exec (fun r t => ∃ v, r = some v ∧
      .value v = (s.get key).1 ∧ Represents list (s.get key).2 t) m := by
  rw [Store.get, if_pos proper]
  obtain ⟨⟨lv, has, flats⟩, items, output⟩ := h
  obtain ⟨min, max⟩ := proper
  have fueled : Fueled fuel lv := has.fueled enough.1 (by
    rw [flats]
    exact enough.2)
  have sorted := (has.stands 0 (by decide)).sorted
  rw [flats] at sorted
  have tail : Assoc.Ascending s.pairs := (List.pairwise_cons.mp sorted).2
  apply has.getTraversal_ends fueled max
  · intro value mem
    rw [flats, List.mem_cons] at mem
    -- the key is not that of the sentinel
    have inside := mem.resolve_left fun eq => Nat.ne_of_gt min (Prod.mk.inj eq).1
    rw [Assoc.find_eq_some tail inside]
    exact ⟨some value, rfl, rfl, ⟨lv, has, flats⟩, items, output⟩
  · intro absent
    rw [flats, List.map_cons, List.mem_cons, not_or] at absent
    rw [Assoc.find_none absent.2]
    exact ⟨none, rfl, rfl, ⟨lv, has, flats⟩, items, output⟩

/-- `bsl_get`, run alone, finds what the store has. -/
theorem bslGet_ends {s : Store} {key : Key} (h : Represents list s m) (enough : Enough fuel s) :
    (bslGet fuel list key).Ends exec
      (fun r t => .value r = (s.get key).1 ∧ Represents list (s.get key).2 t) m := by
  by_cases proper : Proper key
  · rw [bslGet, if_neg proper.inside]
    exact topRetry_ends (Nat.lt_of_le_of_lt (Nat.zero_le _) enough.1)
      (getFirst_ends h enough proper)
  · rw [bslGet, if_pos (outside_of_not_proper proper), Store.get, if_neg proper]
    exact ⟨rfl, h⟩

/-! ### A scan from `KEY_MAX` -/

/-- No header is behind `KEY_MAX`, so the search on a level runs to its end and gives up. -/
theorem Stands.horizontal_stuck {tested : Bool} {key : Key}
    {Q : Option (Addr × Hocc64) → Mem → Prop} (h : Stands m level (d :: rest)) (max : keyMax ≤ key)
    (low : ∀ c ∈ rest, c.first ≤ key)
    (ends : (horizontal tested key fuel d.addr (m.ctrl d.addr)).Ends exec Q m) : Q none m := by
  -- the walk follows every next header, and the last one leads nowhere
  induction rest generalizing d fuel with
  | nil =>
    cases fuel with
    | zero => exact ends.elim
    | succ fuel =>
      have header : (m.node d.addr).nextHeader = keyMax := h.linked.1.nextHeader
      have next : (m.node d.addr).next = null := h.linked.1.next
      rw [horizontal, Prog.ends_bind, ends_loadNextHeader, header, if_pos max, Prog.ends_bind,
        ends_loadNext, next, if_pos rfl] at ends
      exact ends
  | cons c rest ih =>
    cases fuel with
    | zero => exact ends.elim
    | succ fuel =>
      have header : (m.node d.addr).nextHeader = c.first := h.linked.1.nextHeader
      have next : (m.node d.addr).next = c.addr := h.linked.1.next
      have idle := h.idle d List.mem_cons_self
      rw [horizontal, Prog.ends_bind, ends_loadNextHeader, header,
        if_pos (low c List.mem_cons_self), Prog.ends_bind, ends_loadNext, next,
        if_neg (h.known c (by simp)).1, Prog.ends_bind, ends_loadVersion] at ends
      simp only [idle.hasWriter, Bool.false_eq_true, and_false, if_false] at ends
      rw [Prog.ends_bind, ends_validate, validate_self] at ends
      exact ih h.tail (fun b hb => low b (List.mem_cons_of_mem c hb)) ends

/-- A scan from `KEY_MAX` goes back to `top_retry` again and again. -/
theorem HasLevels.scan_stuck (h : HasLevels list lv m) (max : keyMax ≤ start) {length : Nat}
    {retries : Nat} {Q : Unit → Mem → Prop} :
    ¬(scanRetry (fun remaining start =>
      scanOnce fuel list (scanTraversal fuel list start) deliver remaining start) retries length
        start).Ends exec Q m := by
  induction retries with
  | zero => exact id
  | succ retries ih =>
    intro ends
    obtain ⟨d, rest, eq, -, addr⟩ := h.head (l := maxLevel - 1) (by decide)
    have stands := h.stands (maxLevel - 1) (by decide)
    rw [eq] at stands
    -- all keys of the list are below the start
    have low : ∀ c ∈ rest, c.first ≤ start := by
      intro c hc
      have mem : c ∈ d :: rest := List.mem_cons_of_mem d hc
      obtain ⟨slot, first⟩ := firstKey_mem (stands.linked.some c mem)
      have inside : c.first ∈ (flat (lv (maxLevel - 1))).map Prod.fst := by
        rw [eq]
        exact List.mem_map_of_mem (mem_flat.mpr ⟨c, mem, first⟩)
      obtain ⟨e, he, same⟩ := List.mem_map.mp ((h.shape.keys _ (by decide) _).mp inside).1
      exact same ▸ Nat.le_trans (Nat.le_of_lt (h.shape.small e he)) max
    apply ih
    rw [scanRetry, Prog.ends_bind, scanOnce, Prog.ends_bind, scanTraversal, Prog.ends_bind,
      ends_loadVersion, ← addr, show maxLevel - 2 = 2 + 1 from rfl, descend, Prog.ends_bind,
      Prog.ends_bind] at ends
    exact stands.horizontal_stuck max low ends

theorem HasLevels.scan_none (h : HasLevels list lv m) {length : Nat} (pos : 0 < length)
    {deliver : Addr → Nat → Nat → Prog Unit} :
    (if length = 0 then pure () else scanRetry (fun remaining start =>
      scanOnce fuel list (scanTraversal fuel list start) deliver remaining start) fuel length
        keyMax : Prog Unit).run exec m = none := by
  rw [if_neg (Nat.ne_of_gt pos)]
  by_contra ran
  obtain ⟨⟨a, u⟩, ran⟩ := Option.ne_none_iff_exists'.mp ran
  exact h.scan_stuck (Nat.le_refl _) (Q := fun _ _ => True) (Prog.ends_iff.mpr ⟨a, u, ran, trivial⟩)

end DBx1000.Bskiplist
