import DBx1000.Bskiplist.Runs

/-!
# The inspector

`bsl_inspect.c` walks the levels of a list and checks it: the order of the keys, the children
against the keys above them, the level numbers and the cached headers. A list that calls have made
passes all checks, and the inspector leaves it as it was.

## Main result

`session_inspect`: after any sequence of calls every check passes, the keys are counted and their
values are summed up, and the list is as it was.

## Proof strategy

Each check is a loop over the nodes of a level. One rule, `forNodes_ends`, runs such a loop as a
fold over the cells of the level; what the folds compute is then a matter of lists.
-/

namespace DBx1000.Bskiplist

open Program Hocc

section Model

variable {α : Type}

/-- The loop `while (curr)`. The body reads a node and gives back its `next`. -/
def forNodes (body : Addr → α → Prog (Addr × α)) : (turns : Nat) → Addr → α → Prog α
  | 0, _, _ => .spent
  | turns + 1, curr, a =>
    if curr = null then pure a
    else do
      let (next, a) ← body curr a
      forNodes body turns next a

/-- The variables of `bsl_inspect_order`. The sum wraps around where the keys do. -/
structure Order where
  ok : Bool
  isFirst : Bool
  prev : Key
  sum : Val

def Order.next (st : Order) (e : Key × Val) : Order where
  ok := st.ok && (st.isFirst || !decide (e.1 ≤ st.prev))
  isFirst := false
  prev := e.1
  sum := (st.sum + e.2) % (keyMax + 1)

def orderKeys (n : Addr) : (count i : Nat) → Order → Prog Order
  | 0, _, st => pure st
  | count + 1, i, st => do
    let key ← loadKey n i
    let value ← loadSlot n i
    orderKeys n count (i + 1) (st.next (key, value))

def orderNode (fuel : Nat) (curr : Addr) (st : Order) : Prog (Addr × Order) := do
  readLock curr fuel
  let num ← loadNumElts curr
  let next ← loadNext curr
  let st ← orderKeys curr num 0 st
  readUnlock curr
  return (next, st)

/-- `bsl_inspect_order`, with the checksum. -/
def inspectOrder (fuel : Nat) (list : Bsl) : Prog (Bool × Val) := do
  if list 0 = null then return (true, 0)
  let st ← forNodes (orderNode fuel) fuel (list 0) ⟨true, true, 0, 0⟩
  return (st.ok, st.sum)

def indexKids (fuel : Nat) (n : Addr) : (count i : Nat) → Bool → Prog Bool
  | 0, _, ok => pure ok
  | count + 1, i, ok => do
    let child ← loadSlot n i
    if child = null then indexKids fuel n count (i + 1) false
    else
      readLock child fuel
      let childHdr ← loadKey child 0
      readUnlock child
      let key ← loadKey n i
      indexKids fuel n count (i + 1) (ok && childHdr == key)

def indexNode (fuel : Nat) (curr : Addr) (ok : Bool) : Prog (Addr × Bool) := do
  readLock curr fuel
  let num ← loadNumElts curr
  let ok ← indexKids fuel curr num 0 ok
  let next ← loadNext curr
  readUnlock curr
  return (next, ok)

/-- The levels from `lv` down to 1. -/
def indexLevels (fuel : Nat) (list : Bsl) : (lv : Nat) → Bool → Prog Bool
  | 0, ok => pure ok
  | lv + 1, ok => do
    let ok ← forNodes (indexNode fuel) fuel (list (lv + 1)) ok
    indexLevels fuel list lv ok

def inspectIndex (fuel : Nat) (list : Bsl) : Prog Bool :=
  indexLevels fuel list (maxLevel - 1) true

/-- The loop over `count` levels from `lv` up. -/
def forLevels (fuel : Nat) (list : Bsl) (body : Nat → Addr → α → Prog (Addr × α)) :
    (count lv : Nat) → α → Prog α
  | 0, _, a => pure a
  | count + 1, lv, a => do
    let a ← forNodes (body lv) fuel (list lv) a
    forLevels fuel list body count (lv + 1) a

def levelNode (fuel lv : Nat) (curr : Addr) (ok : Bool) : Prog (Addr × Bool) := do
  readLock curr fuel
  let storedLv ← loadLevel curr
  let next ← loadNext curr
  readUnlock curr
  return (next, ok && storedLv == lv)

def inspectLevels (fuel : Nat) (list : Bsl) : Prog Bool :=
  forLevels fuel list (levelNode fuel) maxLevel 0 true

def nextHeaderNode (fuel : Nat) (curr : Addr) (ok : Bool) : Prog (Addr × Bool) := do
  readLock curr fuel
  let cachedNh ← loadNextHeader curr
  let next ← loadNext curr
  readUnlock curr
  if next = null then return (next, ok)
  readLock next fuel
  let actualHdr ← loadKey next 0
  readUnlock next
  return (next, ok && cachedNh == actualHdr)

def inspectNextHeaders (fuel : Nat) (list : Bsl) : Prog Bool :=
  forLevels fuel list (fun _ => nextHeaderNode fuel) maxLevel 0 true

/-- The counters of `bsl_inspect_result_t`. -/
structure Stats where
  totalLeaves : Nat
  totalInternals : Nat
  totalKeys : Nat

def leafStats (fuel : Nat) (curr : Addr) (r : Stats) : Prog (Addr × Stats) := do
  readLock curr fuel
  let num ← loadNumElts curr
  let next ← loadNext curr
  readUnlock curr
  return (next, { r with totalKeys := r.totalKeys + num, totalLeaves := r.totalLeaves + 1 })

def internalStats (fuel : Nat) (curr : Addr) (r : Stats) : Prog (Addr × Stats) := do
  readLock curr fuel
  let next ← loadNext curr
  readUnlock curr
  return (next, { r with totalInternals := r.totalInternals + 1 })

def collectStats (fuel : Nat) (list : Bsl) : Prog Stats := do
  let r ← forNodes (leafStats fuel) fuel (list 0) ⟨0, 0, 0⟩
  forLevels fuel list (fun _ => internalStats fuel) (maxLevel - 1) 1 r

/-- What `bsl_inspect_all` finds out, and prints. -/
structure InspectResult where
  orderOk : Bool
  indexOk : Bool
  levelOk : Bool
  nextHeaderOk : Bool
  checksum : Val
  stats : Stats

def InspectResult.allOk (r : InspectResult) : Bool :=
  r.orderOk && r.indexOk && r.levelOk && r.nextHeaderOk

def inspectAll (fuel : Nat) (list : Bsl) : Prog InspectResult := do
  let order ← inspectOrder fuel list
  let indexOk ← inspectIndex fuel list
  let levelOk ← inspectLevels fuel list
  let nextHeaderOk ← inspectNextHeaders fuel list
  let stats ← if list 0 = null then pure ⟨0, 0, 0⟩ else collectStats fuel list
  return ⟨order.1, indexOk, levelOk, nextHeaderOk, order.2, stats⟩

end Model

/-! ### A list that calls have made -/

variable {m : Mem} {list : Bsl} {lv : Levels} {fuel l : Nat} {c : Cell} {back : List Cell}

theorem forNodes_ends {α : Type} {body : Addr → α → Prog (Addr × α)} {f : α → Cell → α}
    {cells : List Cell} {a : α} {turns : Nat} (known : ∀ c ∈ cells, c.addr ≠ null)
    (step : ∀ c back, c :: back <:+ cells → ∀ a, (body c.addr a).Ends exec
      (fun r t => r = ((link back).2, f a c) ∧ t = m) m)
    (enough : cells.length < turns) :
    (forNodes body turns (link cells).2 a).Ends exec
      (fun r t => r = cells.foldl f a ∧ t = m) m := by
  induction cells generalizing a turns with
  | nil =>
    obtain ⟨turns, rfl⟩ := Nat.exists_eq_add_one.mpr enough
    rw [forNodes, if_pos (show (link []).2 = null from rfl)]
    exact ⟨rfl, rfl⟩
  | cons c cells ih =>
    obtain ⟨turns, rfl⟩ := Nat.exists_eq_add_one.mpr (Nat.lt_of_le_of_lt (Nat.zero_le _) enough)
    rw [forNodes, if_neg (show (link (c :: cells)).2 ≠ null from known c List.mem_cons_self),
      Prog.ends_bind]
    apply (step c cells List.suffix_rfl a).mono
    rintro - t ⟨rfl, rfl⟩
    refine ih (fun d hd => known d (List.mem_cons_of_mem c hd)) (fun d back suffix => ?_)
      (Nat.lt_of_succ_lt_succ enough)
    exact step d back (suffix.trans (List.suffix_cons c cells))

/-- The first key of a node, read under its lock. -/
theorem ends_header {α : Type} {n : Addr} {next : Key → Prog α} {Q : α → Mem → Prop}
    (pos : 0 < fuel) (idle : Idle (m.ctrl n)) :
    Prog.Ends exec (do
      readLock n fuel
      let key ← loadKey n 0
      readUnlock n
      next key) Q m ↔ (next ((m.node n).keys 0)).Ends exec Q m := by
  rw [Prog.ends_bind, ends_readLock pos idle, Prog.ends_bind, ends_loadKey, Prog.ends_bind]
  exact ends_leave

theorem orderKeys_ends {n : Addr} {es : List (Key × Nat)} (elems : (m.node n).Elems es) (st : Order)
    (count i : Nat) (rest : i + count = es.length) :
    (orderKeys n count i st).Ends exec
      (fun r t => r = (es.drop i).foldl Order.next st ∧ t = m) m := by
  induction count generalizing i st with
  | zero =>
    rw [List.drop_of_length_le (by omega)]
    exact ⟨rfl, rfl⟩
  | succ count ih =>
    have lt : i < es.length := by omega
    rw [orderKeys, Prog.ends_bind, ends_loadKey, elems.keys i lt, Prog.ends_bind, ends_loadSlot,
      elems.slots i lt, List.drop_eq_getElem_cons lt]
    exact ih (st.next es[i]) (i + 1) (by omega)

section Nodes

variable (stands : Stands m l (c :: back)) (pos : 0 < fuel)

include stands pos

theorem orderNode_ends (st : Order) : (orderNode fuel c.addr st).Ends exec
    (fun r t => r = ((link back).2, c.entries.foldl Order.next st) ∧ t = m) m := by
  have held := stands.head
  rw [orderNode, Prog.ends_bind, ends_readLock pos (stands.idle c List.mem_cons_self),
    Prog.ends_bind, ends_loadNumElts, Prog.ends_bind, ends_loadNext, Prog.ends_bind]
  have keys := orderKeys_ends (m := m.reading c.addr) held.elems st (m.node c.addr).numElts 0
    (by rw [held.elems.numElts, Nat.zero_add])
  refine keys.mono ?_
  rintro - t ⟨rfl, rfl⟩
  rw [Prog.ends_bind, ends_leave]
  exact ⟨congrArg (·, _) held.next, rfl⟩

theorem levelNode_ends (ok : Bool) : (levelNode fuel l c.addr ok).Ends exec
    (fun r t => r = ((link back).2, ok) ∧ t = m) m := by
  have held := stands.head
  rw [levelNode, Prog.ends_bind, ends_readLock pos (stands.idle c List.mem_cons_self),
    Prog.ends_bind, ends_loadLevel, Prog.ends_bind, ends_loadNext, Prog.ends_bind]
  change (readUnlock c.addr).Ends exec _ (m.reading c.addr)
  rw [ends_leave]
  have level : (m.node c.addr).level = l := held.level
  have next : (m.node c.addr).next = (link back).2 := held.next
  refine ⟨?_, rfl⟩
  change ((m.node c.addr).next, ok && (m.node c.addr).level == l) = _
  rw [level, next, beq_self_eq_true, Bool.and_true]

theorem nextHeaderNode_ends (ok : Bool) : (nextHeaderNode fuel c.addr ok).Ends exec
    (fun r t => r = ((link back).2, ok) ∧ t = m) m := by
  have held := stands.head
  have next : (m.node c.addr).next = (link back).2 := held.next
  have header : (m.node c.addr).nextHeader = (link back).1 := held.nextHeader
  rw [nextHeaderNode, Prog.ends_bind, ends_readLock pos (stands.idle c List.mem_cons_self),
    Prog.ends_bind, ends_loadNextHeader, Prog.ends_bind, ends_loadNext, Prog.ends_bind]
  change (readUnlock c.addr).Ends exec _ (m.reading c.addr)
  rw [ends_leave]
  rw [Mem.setCtrl_node, next, header]
  cases back with
  | nil => exact ⟨rfl, rfl⟩
  | cons d back =>
    have behind := stands.tail
    have first : (m.node d.addr).keys 0 = d.first :=
      (behind.head.elems.head behind.head.some).1
    rw [if_neg (show (link (d :: back)).2 ≠ null from (behind.known d List.mem_cons_self).1)]
    refine (ends_header pos (behind.idle d List.mem_cons_self)).mpr ⟨?_, rfl⟩
    rw [first]
    change (d.addr, ok && d.first == d.first) = (d.addr, ok)
    rw [beq_self_eq_true, Bool.and_true]

theorem leafStats_ends (r : Stats) : (leafStats fuel c.addr r).Ends exec (fun r' t => r' =
    ((link back).2, { r with
      totalKeys := r.totalKeys + c.entries.length
      totalLeaves := r.totalLeaves + 1 }) ∧ t = m) m := by
  have held := stands.head
  rw [leafStats, Prog.ends_bind, ends_readLock pos (stands.idle c List.mem_cons_self),
    Prog.ends_bind, ends_loadNumElts, Prog.ends_bind, ends_loadNext, Prog.ends_bind]
  change (readUnlock c.addr).Ends exec _ (m.reading c.addr)
  rw [ends_leave, ← held.elems.numElts, ← held.next]
  exact ⟨rfl, rfl⟩

theorem internalStats_ends (r : Stats) : (internalStats fuel c.addr r).Ends exec (fun r' t => r' =
    ((link back).2, { r with totalInternals := r.totalInternals + 1 }) ∧ t = m) m := by
  have held := stands.head
  rw [internalStats, Prog.ends_bind, ends_readLock pos (stands.idle c List.mem_cons_self),
    Prog.ends_bind, ends_loadNext, Prog.ends_bind]
  change (readUnlock c.addr).Ends exec _ (m.reading c.addr)
  rw [ends_leave, ← held.next]
  exact ⟨rfl, rfl⟩

end Nodes

section Levels

variable (h : HasLevels list lv m) (fueled : Fueled fuel lv)

include h

theorem HasLevels.suffix (lt : l < maxLevel) (suffix : c :: back <:+ lv l) :
    Stands m l (c :: back) ∧ c ∈ lv l := by
  have stands := h.stands l lt
  refine ⟨?_, suffix.subset List.mem_cons_self⟩
  obtain ⟨front, eq⟩ := suffix
  rw [← eq] at stands
  exact stands.suffix

theorem HasLevels.link_eq (lt : l < maxLevel) : list l = (link (lv l)).2 := by
  obtain ⟨d, rest, eq, -, addr⟩ := h.head lt
  rw [eq]
  exact addr.symm

include fueled

/-- A loop over the nodes of a level. -/
theorem HasLevels.forNodes_ends {α : Type} {body : Addr → α → Prog (Addr × α)} {f : α → Cell → α}
    {a : α} (lt : l < maxLevel) (step : ∀ c back, Stands m l (c :: back) → c ∈ lv l → ∀ a,
      (body c.addr a).Ends exec (fun r t => r = ((link back).2, f a c) ∧ t = m) m) :
    (forNodes body fuel (list l) a).Ends exec (fun r t => r = (lv l).foldl f a ∧ t = m) m := by
  rw [h.link_eq lt]
  apply Bskiplist.forNodes_ends
  · exact fun c hc => ((h.stands l lt).known c hc).1
  · intro c back suffix
    obtain ⟨stands, mem⟩ := h.suffix lt suffix
    exact step c back stands mem
  · exact fueled.nodes l lt

omit fueled in
/-- The children of a node under its lock. -/
theorem HasLevels.indexKids_ends (pos : 0 < fuel) (lt : l + 1 < maxLevel) (hc : c ∈ lv (l + 1))
    {es : List (Key × Nat)} (entries : c.entries = es) (elems : (m.node c.addr).Elems es)
    (ok : Bool) (count i : Nat) (rest : i + count = es.length) :
    (indexKids fuel c.addr count i ok).Ends exec (fun r t => r = ok ∧ t = m.reading c.addr)
      (m.reading c.addr) := by
  induction count generalizing i with
  | zero => exact ⟨rfl, rfl⟩
  | succ count ih =>
    have inside : i < es.length := by omega
    have lt' : l < maxLevel := Nat.lt_of_succ_lt lt
    obtain ⟨d, hd, first, addr⟩ := h.child lt (e := es[i])
      (mem_flat.mpr ⟨c, hc, by rw [entries]; exact List.getElem_mem inside⟩)
    have stands := h.stands l lt'
    obtain ⟨after, heldD⟩ := stands.linked.held_of_mem hd
    have ne : c.addr ≠ d.addr := h.addr_ne lt lt' (Nat.succ_ne_self l) hc hd
    have idle : Idle ((m.reading c.addr).ctrl d.addr) := by
      rw [Mem.reading, Mem.setCtrl_ctrl, Function.update_of_ne ne.symm]
      exact stands.idle d hd
    have key : ((m.reading c.addr).node d.addr).keys 0 = d.first :=
      (heldD.elems.head heldD.some).1
    have slot : ((m.reading c.addr).node c.addr).slots i = d.addr :=
      (elems.slots i inside).trans addr.symm
    rw [indexKids, Prog.ends_bind, ends_loadSlot, slot, if_neg (stands.known d hd).1]
    refine (ends_header pos idle).mpr ?_
    have above : ((m.reading c.addr).node c.addr).keys i = d.first :=
      (elems.keys i inside).trans first.symm
    rw [key, Prog.ends_bind, ends_loadKey, above, beq_self_eq_true, Bool.and_true]
    exact ih (i + 1) (by omega)

theorem HasLevels.indexLevels_ends (lt : l < maxLevel) (ok : Bool) :
    (indexLevels fuel list l ok).Ends exec (fun r t => r = ok ∧ t = m) m := by
  have pos : 0 < fuel := Nat.lt_of_le_of_lt (Nat.zero_le _) fueled.levels
  induction l with
  | zero => exact ⟨rfl, rfl⟩
  | succ l ih =>
    have node (c : Cell) (back : List Cell) (stands : Stands m (l + 1) (c :: back))
        (hc : c ∈ lv (l + 1)) (ok : Bool) : (indexNode fuel c.addr ok).Ends exec
          (fun r t => r = ((link back).2, ok) ∧ t = m) m := by
      have held := stands.head
      rw [indexNode, Prog.ends_bind, ends_readLock pos (stands.idle c List.mem_cons_self),
        Prog.ends_bind, ends_loadNumElts, Prog.ends_bind]
      apply (h.indexKids_ends pos lt hc rfl held.elems ok (m.node c.addr).numElts 0
        (by rw [held.elems.numElts, Nat.zero_add])).mono
      rintro - t ⟨rfl, rfl⟩
      rw [Prog.ends_bind, ends_loadNext, Prog.ends_bind, ends_leave, ← held.next]
      exact ⟨rfl, rfl⟩
    rw [indexLevels, Prog.ends_bind]
    apply (h.forNodes_ends fueled lt (f := fun ok _ => ok) node).mono
    rintro - t ⟨rfl, rfl⟩
    rw [List.foldl_fixed]
    exact ih (Nat.lt_of_succ_lt lt)

/-- The checks of the levels find nothing, and counting is a sum. -/
theorem HasLevels.forLevels_ends {α : Type} {body : Nat → Addr → α → Prog (Addr × α)}
    (f : α → Cell → α) {a : α} (count : Nat) (le : l + count ≤ maxLevel)
    (step : ∀ l < maxLevel, ∀ c back, Stands m l (c :: back) → ∀ a,
      (body l c.addr a).Ends exec (fun r t => r = ((link back).2, f a c) ∧ t = m) m) :
    (forLevels fuel list body count l a).Ends exec (fun r t =>
      r = (List.range' l count).foldl (fun a l => (lv l).foldl f a) a ∧ t = m) m := by
  induction count generalizing l a with
  | zero => exact ⟨rfl, rfl⟩
  | succ count ih =>
    have lt : l < maxLevel := by omega
    rw [forLevels, Prog.ends_bind]
    apply (h.forNodes_ends fueled lt fun c back stands _ => step l lt c back stands).mono
    rintro - t ⟨rfl, rfl⟩
    rw [List.range'_succ, List.foldl_cons]
    exact ih (by omega)

end Levels

/-! ### What the inspector finds -/

/-- The order of keys that ascend. -/
theorem foldl_order (st : Order) {es : List (Key × Nat)} (sorted : Increasing es)
    (ok : st.ok = true) (before : st.isFirst = true ∨ ∀ e ∈ es, st.prev < e.1)
    (small : st.sum < keyMax + 1) :
    (es.foldl Order.next st).ok = true ∧
      (es.foldl Order.next st).sum = (st.sum + (es.map Prod.snd).sum) % (keyMax + 1) := by
  induction es generalizing st with
  | nil => exact ⟨ok, (Nat.mod_eq_of_lt small).symm⟩
  | cons e es ih =>
    obtain ⟨above, sorted⟩ := List.pairwise_cons.mp sorted
    have here : (st.isFirst || !decide (e.1 ≤ st.prev)) = true := by
      rcases before with first | before
      · rw [first, Bool.true_or]
      · simp [before e List.mem_cons_self]
    have next := ih (st.next e) sorted (by rw [Order.next, ok, here, Bool.and_true])
      (.inr above) (Nat.mod_lt _ (Nat.succ_pos keyMax))
    rw [List.foldl_cons, List.map_cons, List.sum_cons]
    refine ⟨next.1, next.2.trans ?_⟩
    rw [Order.next, Nat.mod_add_mod, Nat.add_assoc]

theorem foldl_leafStats (cells : List Cell) (r : Stats) :
    (cells.foldl (fun r c => { r with
      totalKeys := r.totalKeys + c.entries.length
      totalLeaves := r.totalLeaves + 1 }) r).totalKeys =
      r.totalKeys + (flat cells).length := by
  induction cells generalizing r with
  | nil => rfl
  | cons c cells ih =>
    rw [List.foldl_cons, ih, flat_cons, List.length_append, Nat.add_assoc]

theorem foldl_internalStats (levels : List Nat) (r : Stats) :
    (levels.foldl (fun r l => (lv l).foldl (fun r _ =>
      { r with totalInternals := r.totalInternals + 1 }) r) r).totalKeys = r.totalKeys := by
  have level (cells : List Cell) (r : Stats) : (cells.foldl (fun r _ =>
      { r with totalInternals := r.totalInternals + 1 }) r).totalKeys = r.totalKeys := by
    induction cells generalizing r with
    | nil => rfl
    | cons c cells ih => rw [List.foldl_cons, ih]
  induction levels generalizing r with
  | nil => rfl
  | cons l levels ih => rw [List.foldl_cons, ih, level]

/-- A well formed list passes all checks. -/
theorem HasLevels.inspectAll_ends (h : HasLevels list lv m) (fueled : Fueled fuel lv) :
    (inspectAll fuel list).Ends exec (fun r t => r.allOk = true ∧
      r.stats.totalKeys = (flat (lv 0)).length ∧
      r.checksum = ((flat (lv 0)).map Prod.snd).sum % (keyMax + 1) ∧ t = m) m := by
  have pos : 0 < fuel := Nat.lt_of_le_of_lt (Nat.zero_le _) fueled.levels
  have leaves : 0 < maxLevel := by decide
  have some : list 0 ≠ null := by
    obtain ⟨d, rest, eq, -, addr⟩ := h.head leaves
    exact addr ▸ ((h.stands 0 leaves).known d (eq ▸ List.mem_cons_self)).1
  have order := foldl_order ⟨true, true, 0, 0⟩ (h.stands 0 leaves).sorted rfl (.inl rfl)
    (Nat.succ_pos keyMax)
  rw [inspectAll, Prog.ends_bind, inspectOrder, if_neg some, Prog.ends_bind]
  apply (h.forNodes_ends fueled leaves (f := fun st c => c.entries.foldl Order.next st)
    fun c back stands _ => orderNode_ends stands pos).mono
  rintro - t ⟨rfl, rfl⟩
  rw [← List.foldl_flatMap]
  change Prog.Ends exec (inspectIndex fuel list >>= fun _ => _) _ t
  rw [Prog.ends_bind]
  apply (h.indexLevels_ends fueled (show maxLevel - 1 < maxLevel by decide) true).mono
  rintro - t ⟨rfl, rfl⟩
  rw [Prog.ends_bind]
  apply (h.forLevels_ends fueled (fun ok _ => ok) maxLevel (Nat.zero_add maxLevel).le
    fun l _ c back stands => levelNode_ends stands pos).mono
  rintro - t ⟨rfl, rfl⟩
  rw [Prog.ends_bind]
  apply (h.forLevels_ends fueled (fun ok _ => ok) maxLevel (Nat.zero_add maxLevel).le
    fun l _ c back stands => nextHeaderNode_ends stands pos).mono
  rintro - t ⟨rfl, rfl⟩
  rw [if_neg some, collectStats, Prog.ends_bind, Prog.ends_bind]
  apply (h.forNodes_ends fueled leaves (f := fun r c => { r with
    totalKeys := r.totalKeys + c.entries.length
    totalLeaves := r.totalLeaves + 1 })
    fun c back stands _ => leafStats_ends stands pos).mono
  rintro - t ⟨rfl, rfl⟩
  apply (h.forLevels_ends fueled (fun r _ => { r with totalInternals := r.totalInternals + 1 })
    (maxLevel - 1) (show 1 + (maxLevel - 1) ≤ maxLevel by decide)
    fun l _ c back stands => internalStats_ends stands pos).mono
  rintro - t ⟨rfl, rfl⟩
  refine ⟨?_, ?_, ?_, rfl⟩
  · simp only [InspectResult.allOk, List.foldl_fixed, Bool.and_true]
    exact order.1
  · rw [foldl_internalStats, foldl_leafStats, Nat.zero_add]
  · exact order.2.trans (by rw [Nat.zero_add])

/-- Whatever calls have been made, the inspector finds nothing wrong: it counts the keys of the
store with `KEY_MIN`, sums up their values, and leaves the list as it was. -/
theorem session_inspect {rs : List Request} (memory : m.fresh ≠ null) (levels : maxLevel < fuel)
    (keys : rs.length + 1 < fuel) (allowed : ∀ r ∈ rs, r.Allowed) : ∃ list t r, (do
      let list ← bslNew
      let _ ← session fuel list rs
      return list).run exec m = some (list, t) ∧
      (inspectAll fuel list).run exec t = some (r, t) ∧ r.allOk = true ∧
      r.stats.totalKeys = (m.store.calls rs).2.pairs.length + 1 ∧
      r.checksum = ((m.store.calls rs).2.pairs.map Prod.snd).sum % (keyMax + 1) := by
  obtain ⟨list, t, ran, enough, ⟨lv, has, flats⟩, -, -⟩ := session_list memory levels keys allowed
  have fueled : Fueled fuel lv := has.fueled enough.1 (by
    rw [flats]
    exact enough.2)
  obtain ⟨r, _, inspected, ok, total, sum, rfl⟩ := Prog.ends_iff.mp (has.inspectAll_ends fueled)
  refine ⟨list, _, r, ran, inspected, ok, total.trans (by rw [flats, List.length_cons]), ?_⟩
  rw [sum, flats, List.map_cons, List.sum_cons, Nat.zero_add]

theorem session_inspect_two : ∃ list t r, (do
    let list ← bslNew
    let _ ← session 10 list [.insert 5 70, .insert 4 71]
    return list).run exec Mem.blank = some (list, t) ∧
    (inspectAll 10 list).run exec t = some (r, t) ∧ r.allOk = true ∧
    r.stats.totalKeys = (Mem.blank.store.calls [.insert 5 70, .insert 4 71]).2.pairs.length + 1 ∧
    r.checksum = ((Mem.blank.store.calls
      [.insert 5 70, .insert 4 71]).2.pairs.map Prod.snd).sum % (keyMax + 1) :=
  session_inspect (by decide) (by decide) (by decide) (by simp [Request.Allowed])

end DBx1000.Bskiplist
