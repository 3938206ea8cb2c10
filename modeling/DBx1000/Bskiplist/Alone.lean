import DBx1000.Bskiplist.Rank
import DBx1000.Bskiplist.Hops
import DBx1000.Bskiplist.Operations

/-!
# Operations run alone

What the operations on one node do when no other thread takes steps: the lock operations on a
node that nobody holds, the searches, and the insertion and removal of elements. `Ends` with
any demand `Q` is reduced to `Q` of the memory that is left.
-/

namespace DBx1000.Bskiplist

open Program Hocc

variable {m : Mem} {n : Addr} {fuel : Nat}

/-! ### Locks -/

/-- Nobody holds the node of this word. -/
def Idle (v : Hocc64) : Prop := ∃ ver, ver < 2 ^ 48 ∧ v = pack ver 0 false false

theorem Idle.hasWriter {v : Hocc64} (h : Idle v) : hasWriter v = false := by
  obtain ⟨ver, lt, rfl⟩ := h
  exact hasWriter_pack false false lt (by decide)

theorem Idle.hasRetry {v : Hocc64} (h : Idle v) : hasRetry v = false := by
  obtain ⟨ver, lt, rfl⟩ := h
  exact hasRetry_pack false false lt (by decide)

theorem idle_hoccInit : Idle hoccInit := ⟨0, by decide, hoccInit_eq⟩

theorem idle_hoccUnlocked (v : Hocc64) : Idle (hoccUnlocked v) := by
  refine ⟨version (v + hoccVersionUnit), ?_, hoccUnlocked_eq v⟩
  exact Nat.mod_lt _ (by decide)

theorem validate_self (v : Hocc64) : hoccValidate v v = true :=
  (hoccValidate_iff v v).mpr ⟨rfl, rfl⟩

@[simp] theorem Mem.setCtrl_fresh (m : Mem) (n : Addr) (w : Hocc64) :
    (m.setCtrl n w).fresh = m.fresh := rfl
@[simp] theorem Mem.setCtrl_itemNext (m : Mem) (n : Addr) (w : Hocc64) :
    (m.setCtrl n w).itemNext = m.itemNext := rfl
@[simp] theorem Mem.setCtrl_output (m : Mem) (n : Addr) (w : Hocc64) :
    (m.setCtrl n w).output = m.output := rfl

theorem Mem.setCtrl_self (m : Mem) (n : Addr) : m.setCtrl n (m.ctrl n) = m := by
  rw [Mem.setCtrl, Function.update_eq_self]

theorem Mem.setCtrl_setCtrl (m : Mem) (n : Addr) (v w : Hocc64) :
    (m.setCtrl n v).setCtrl n w = m.setCtrl n w := by
  simp [Mem.setCtrl]

theorem Mem.setNode_setNode (m : Mem) (n : Addr) (d e : Node) :
    (m.setNode n d).setNode n e = m.setNode n e := by
  simp [Mem.setNode]

theorem ends_atomicLoad {Q : Hocc64 → Mem → Prop} :
    (atomicLoad n).Ends exec Q m ↔ Q (m.ctrl n) m := by
  change Q (m.ctrl n) (m.setCtrl n (m.ctrl n)) ↔ _
  rw [Mem.setCtrl_self]

/-- A comparison with the word that is there. -/
theorem ends_compareExchange {v w : Hocc64} (same : m.ctrl n = v) {Q : Bool → Mem → Prop} :
    (compareExchange n v w).Ends exec Q m ↔ Q true (m.setCtrl n w) := by
  subst same
  change Q (m.ctrl n == m.ctrl n) (m.setCtrl n (if m.ctrl n = m.ctrl n then w else _)) ↔ _
  rw [if_pos rfl, beq_self_eq_true]

section Locks

variable {Q : Unit → Mem → Prop}

theorem ends_claim (pos : 0 < fuel) (idle : Idle (m.ctrl n)) (more : Hocc64) :
    (claim n more fuel).Ends exec Q m ↔
      Q () (m.setCtrl n (m.ctrl n ||| hoccWriterBit ||| more)) := by
  obtain ⟨fuel, rfl⟩ := Nat.exists_eq_add_one.mpr pos
  rw [claim, Prog.ends_bind, ends_atomicLoad]
  simp only [idle.hasWriter, Bool.false_eq_true, if_false]
  rw [Prog.ends_bind, ends_compareExchange rfl]
  rfl

theorem ends_drain (pos : 0 < fuel) (drained : hasReaders (m.ctrl n) = false) :
    (drain n fuel).Ends exec Q m ↔ Q () m := by
  obtain ⟨fuel, rfl⟩ := Nat.exists_eq_add_one.mpr pos
  rw [drain, Prog.ends_bind, ends_atomicLoad, drained]
  rfl

/-- The lock word is the one that callers validate against. -/
theorem ends_writeLock (pos : 0 < fuel) (idle : Idle (m.ctrl n)) :
    (writeLock fuel n).Ends exec Q m ↔ Q () (m.setCtrl n (m.ctrl n + hoccWriterBit)) := by
  obtain ⟨ver, lt, word⟩ := id idle
  have locked : m.ctrl n ||| hoccWriterBit ||| 0 = pack ver 0 false true := by
    rw [word, show (0 : Hocc64) = 0#64 from rfl, BitVec.or_zero, pack_or_writerBit lt (by decide)]
  rw [writeLock, Prog.ends_bind, ends_claim pos idle, locked, ends_drain pos, word,
    pack_add_writerBit]
  rw [Mem.setCtrl_ctrl, Function.update_self]
  exact hasReaders_pack false true lt (by decide)

theorem ends_writeLockEvicting (pos : 0 < fuel) (idle : Idle (m.ctrl n)) :
    (writeLockEvicting fuel n).Ends exec Q m ↔
      Q () (m.setCtrl n (m.ctrl n ||| hoccWriterBit ||| hoccRetryBit)) := by
  obtain ⟨ver, lt, word⟩ := id idle
  rw [writeLockEvicting, Prog.ends_bind, ends_claim pos idle, ends_drain pos]
  rw [Mem.setCtrl_ctrl, Function.update_self, word, pack_or_writerBit_or_retryBit lt (by decide)]
  exact hasReaders_pack true true lt (by decide)

theorem ends_writeUnlock :
    (writeUnlock n).Ends exec Q m ↔ Q () (m.setCtrl n (hoccUnlocked (m.ctrl n))) := by
  rw [writeUnlock, Prog.ends_bind, ends_atomicLoad, Prog.ends_bind]
  rfl

theorem ends_readLock (pos : 0 < fuel) (idle : Idle (m.ctrl n)) :
    (readLock n fuel).Ends exec Q m ↔ Q () (m.setCtrl n (m.ctrl n + hoccReaderUnit)) := by
  obtain ⟨fuel, rfl⟩ := Nat.exists_eq_add_one.mpr pos
  rw [readLock, Prog.ends_bind, ends_atomicLoad]
  simp only [idle.hasWriter, Bool.false_eq_true, if_false]
  rw [Prog.ends_bind, ends_compareExchange rfl]
  rfl

theorem ends_readTrylock (pos : 0 < fuel) (idle : Idle (m.ctrl n)) {Q : Bool → Mem → Prop} :
    (readTrylock n fuel).Ends exec Q m ↔ Q true (m.setCtrl n (m.ctrl n + hoccReaderUnit)) := by
  obtain ⟨fuel, rfl⟩ := Nat.exists_eq_add_one.mpr pos
  rw [readTrylock, Prog.ends_bind, ends_atomicLoad]
  simp only [idle.hasWriter, idle.hasRetry, Bool.false_eq_true, if_false]
  rw [Prog.ends_bind, ends_compareExchange rfl]
  rfl

theorem ends_readUnlock :
    (readUnlock n).Ends exec Q m ↔ Q () (m.setCtrl n (m.ctrl n - hoccReaderUnit)) := Iff.rfl

end Locks

/-! ### Loads and stores -/

section Accesses

variable {i : Nat}

theorem ends_loadVersion {Q : Hocc64 → Mem → Prop} :
    (loadVersion n).Ends exec Q m ↔ Q (m.ctrl n) m := Iff.rfl

theorem ends_validate {v : Hocc64} {move : Option Move} {Q : Bool → Mem → Prop} :
    (validate n v move).Ends exec Q m ↔ Q (hoccValidate (m.ctrl n) v) m := Iff.rfl

theorem ends_loadNext {Q : Addr → Mem → Prop} :
    (loadNext n).Ends exec Q m ↔ Q (m.node n).next m := Iff.rfl

theorem ends_loadNextHeader {Q : Key → Mem → Prop} :
    (loadNextHeader n).Ends exec Q m ↔ Q (m.node n).nextHeader m := Iff.rfl

theorem ends_loadNumElts {Q : Nat → Mem → Prop} :
    (loadNumElts n).Ends exec Q m ↔ Q (m.node n).numElts m := Iff.rfl

theorem ends_loadLevel {Q : Nat → Mem → Prop} :
    (loadLevel n).Ends exec Q m ↔ Q (m.node n).level m := Iff.rfl

theorem ends_loadSlot {Q : Nat → Mem → Prop} :
    (loadSlot n i).Ends exec Q m ↔ Q ((m.node n).slots i) m := Iff.rfl

theorem ends_storeNode {f : Node → Node} {Q : Unit → Mem → Prop} :
    (storeNode n f).Ends exec Q m ↔ Q () (m.setNode n (f (m.node n))) := Iff.rfl

theorem ends_nodeAlloc {Q : Addr → Mem → Prop} :
    nodeAlloc.Ends exec Q m ↔
      Q m.fresh { (m.setCtrl m.fresh hoccInit).setNode m.fresh Node.zero with
        fresh := m.fresh + 1 } := Iff.rfl

end Accesses

/-! ### The elements of a node -/

/-- The arrays of the node begin with these elements. -/
structure Node.Elems (d : Node) (es : List (Key × Nat)) : Prop where
  numElts : d.numElts = es.length
  keys : ∀ (i : Nat) (lt : i < es.length), d.keys i = es[i].1
  slots : ∀ (i : Nat) (lt : i < es.length), d.slots i = es[i].2

/-- The node after `insert_internal_slot` or `insert_leaf_slot`. -/
def Node.insertSlot (d : Node) (rank : Nat) (key : Key) (slot : Nat) : Node :=
  { d with
    keys := Function.update (moved d.keys d.keys rank (rank + 1) (d.numElts - rank)) rank key
    slots := Function.update (moved d.slots d.slots rank (rank + 1) (d.numElts - rank)) rank slot
    numElts := d.numElts + 1 }

/-- The node after `delete_internal_slot` or `delete_leaf_slot`. -/
def Node.deleteSlot (d : Node) (rank : Nat) : Node :=
  { d with
    keys := moved d.keys d.keys (rank + 1) rank (d.numElts - rank - 1)
    slots := moved d.slots d.slots (rank + 1) rank (d.numElts - rank - 1)
    numElts := d.numElts - 1 }

section Slots

variable {rank : Nat} {key : Key} {slot : Nat} {d : Node} {u v : List (Key × Nat)}
  {Q : Unit → Mem → Prop}

theorem ends_insertSlot (le : rank ≤ (m.node n).numElts) (room : (m.node n).numElts < capacity) :
    (insertSlot n rank key slot).Ends exec Q m ↔
      Q () (m.setNode n ((m.node n).insertSlot rank key slot)) := by
  have fits : rank + 1 + ((m.node n).numElts - rank) ≤ capacity := by omega
  have inside : rank < capacity := Nat.lt_of_le_of_lt le room
  unfold insertSlot memmoveKeys memmoveSlots storeKey storeSlot
  simp only [Prog.ends_bind, ends_loadNumElts, fits, inside]
  change Q () _ ↔ _
  simp only [exec, Mem.setNode, Node.insertSlot, Function.update_self, Function.update_idem]

theorem ends_deleteSlot (lt : rank < (m.node n).numElts) (few : (m.node n).numElts ≤ capacity) :
    (deleteSlot n rank).Ends exec Q m ↔
      Q () (m.setNode n ((m.node n).deleteSlot rank)) := by
  have fits : rank + ((m.node n).numElts - rank - 1) ≤ capacity := by omega
  unfold deleteSlot memmoveKeys memmoveSlots
  simp only [Prog.ends_bind, ends_loadNumElts, fits]
  change Q () _ ↔ _
  simp only [exec, Mem.setNode, Node.deleteSlot, Function.update_self, Function.update_idem]

/-- An array with one more element. -/
theorem moved_insert (f : Key × Nat → Nat) {a : Nat → Nat} (e : Key × Nat)
    (h : ∀ i (lt : i < (u ++ v).length), a i = f (u ++ v)[i]) (i : Nat)
    (lt : i < (u ++ e :: v).length) :
    Function.update (moved a a u.length (u.length + 1) v.length) u.length (f e) i =
      f (u ++ e :: v)[i] := by
  simp only [List.length_append, List.length_cons] at lt
  rcases Nat.lt_trichotomy i u.length with before | rfl | behind
  · rw [Function.update_of_ne (Nat.ne_of_lt before), moved, if_neg (by omega),
      h i (by rw [List.length_append]; omega), List.getElem_append_left before,
      List.getElem_append_left before]
  · rw [Function.update_self, List.getElem_append_right (Nat.le_refl _)]
    simp
  · rw [Function.update_of_ne (Nat.ne_of_gt behind), moved, if_pos (by omega),
      h _ (by rw [List.length_append]; omega), List.getElem_append_right (by omega),
      List.getElem_append_right (Nat.le_of_lt behind)]
    congr 1
    rw [List.getElem_cons, dif_neg (by omega)]
    congr 1
    omega

/-- An array with one element less. -/
theorem moved_delete (f : Key × Nat → Nat) {a : Nat → Nat} (e : Key × Nat)
    (h : ∀ i (lt : i < (u ++ e :: v).length), a i = f (u ++ e :: v)[i]) (i : Nat)
    (lt : i < (u ++ v).length) :
    moved a a (u.length + 1) u.length v.length i = f (u ++ v)[i] := by
  simp only [List.length_append] at lt
  by_cases before : i < u.length
  · rw [moved, if_neg (by omega), h i (by rw [List.length_append, List.length_cons]; omega),
      List.getElem_append_left before, List.getElem_append_left before]
  · rw [moved, if_pos (by omega), h _ (by rw [List.length_append, List.length_cons]; omega),
      List.getElem_append_right (by omega), List.getElem_append_right (Nat.le_of_not_lt before)]
    congr 1
    rw [List.getElem_cons, dif_neg (by omega)]
    congr 1
    omega

theorem Node.Elems.insertSlot (h : d.Elems (u ++ v)) (key : Key) (slot : Nat) :
    (d.insertSlot u.length key slot).Elems (u ++ (key, slot) :: v) := by
  have count : d.numElts - u.length = v.length := by
    rw [h.numElts, List.length_append, Nat.add_sub_cancel_left]
  constructor
  · simp only [Node.insertSlot, h.numElts, List.length_append, List.length_cons]
    omega
  · intro i lt
    rw [Node.insertSlot, count]
    exact moved_insert Prod.fst (key, slot) h.keys i lt
  · intro i lt
    rw [Node.insertSlot, count]
    exact moved_insert Prod.snd (key, slot) h.slots i lt

theorem Node.Elems.deleteSlot {e : Key × Nat} (h : d.Elems (u ++ e :: v)) :
    (d.deleteSlot u.length).Elems (u ++ v) := by
  have count : d.numElts - u.length - 1 = v.length := by
    rw [h.numElts, List.length_append, List.length_cons]
    omega
  constructor
  · simp only [Node.deleteSlot, h.numElts, List.length_append, List.length_cons]
    omega
  · intro i lt
    rw [Node.deleteSlot, count]
    exact moved_delete Prod.fst e h.keys i lt
  · intro i lt
    rw [Node.deleteSlot, count]
    exact moved_delete Prod.snd e h.slots i lt

/-- Elements behind those that the second array has. -/
theorem moved_append (f : Key × Nat → Nat) {w : List (Key × Nat)} {a b : Nat → Nat}
    (old : ∀ i (lt : i < (u ++ v).length), a i = f (u ++ v)[i])
    (first : ∀ i (lt : i < w.length), b i = f w[i]) (i : Nat) (lt : i < (w ++ v).length) :
    moved a b u.length w.length v.length i = f (w ++ v)[i] := by
  rw [List.length_append] at lt
  by_cases before : i < w.length
  · rw [moved, if_neg (by omega), first i before, List.getElem_append_left before]
  · rw [moved, if_pos (by omega), old _ (by rw [List.length_append]; omega),
      List.getElem_append_right (by omega), List.getElem_append_right (Nat.le_of_not_lt before)]
    congr 2
    omega

theorem Node.Elems.append {dn : Node} {w : List (Key × Nat)} (first : dn.Elems w)
    (h : d.Elems (u ++ v)) : Node.Elems { dn with
      keys := moved d.keys dn.keys u.length w.length v.length
      slots := moved d.slots dn.slots u.length w.length v.length
      numElts := dn.numElts + v.length } (w ++ v) where
  numElts := by simp only [first.numElts, List.length_append]
  keys := moved_append Prod.fst h.keys first.keys
  slots := moved_append Prod.snd h.slots first.slots

theorem Node.Elems.take (h : d.Elems (u ++ v)) :
    Node.Elems { d with numElts := u.length } u where
  numElts := rfl
  keys i lt := by
    rw [h.keys i (by rw [List.length_append]; omega), List.getElem_append_left lt]
  slots i lt := by
    rw [h.slots i (by rw [List.length_append]; omega), List.getElem_append_left lt]

end Slots

end DBx1000.Bskiplist
