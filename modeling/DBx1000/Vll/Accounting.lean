import DBx1000.Vll.Queue
import Mathlib.Data.List.Nodup

/-!
# What VLL accounts for, and whom it forgets

The list of entries, the counters of the rows and the freedom of the free transactions are
as they should be in every run. The entries do not name their transactions: nothing stores
to `txn` after `getQEntry`. So a blocked transaction is never found at the front.

## Main result

`vll_accounts`: the list and the counters agree with the transactions that were begun and
not finished, a free one conflicts with none ahead of it, and no assertion stops a worker but
that of `execute` on an access that is neither a read nor a write; but the entries name their
transactions, and a blocked front is executed next, exactly in the states with an empty
queue. `vll_blocked_stays`: what is blocked once stays in the queue in every run.

## Proof strategy

`VllInv` is kept by every step. The counters are sums over the queued transactions, so the
loops over the accesses are compared with counts of accesses, by induction on the list.
-/

namespace DBx1000.Vll

open LinkedList Transition

variable {ρ τ ω : Type*}

/-! ### The list of the entries -/

namespace TxnQueue

variable {q q' : TxnQueue τ} {a en : Nat} {front back cells : List Nat}

@[simp] theorem next_setNext (n : Option Nat) :
    (q.setNext en n).next a = if a = en then n else q.next a := by
  by_cases e : a = en
  · subst e; simp [setNext, next]
  · simp [setNext, next, e]

@[simp] theorem prev_setNext (n : Option Nat) : (q.setNext en n).prev a = q.prev a := by
  by_cases e : a = en
  · subst e; simp [setNext, prev]
  · simp [setNext, prev, e]

@[simp] theorem next_setPrev (p : Option Nat) : (q.setPrev en p).next a = q.next a := by
  by_cases e : a = en
  · subst e; simp [setPrev, next]
  · simp [setPrev, next, e]

@[simp] theorem prev_setPrev (p : Option Nat) :
    (q.setPrev en p).prev a = if a = en then p else q.prev a := by
  by_cases e : a = en
  · subst e; simp [setPrev, prev]
  · simp [setPrev, prev, e]

/-- Stores to the links do not name a transaction. -/
@[simp] theorem txn_setNext (n : Option Nat) : ((q.setNext en n).entry a).txn = (q.entry a).txn := by
  by_cases e : a = en
  · subst e; simp [setNext]
  · simp [setNext, e]

@[simp] theorem txn_setPrev (p : Option Nat) : ((q.setPrev en p).entry a).txn = (q.entry a).txn := by
  by_cases e : a = en
  · subst e; simp [setPrev]
  · simp [setPrev, e]

@[simp] theorem tail_setNext (n : Option Nat) : (q.setNext en n).tail = q.tail := rfl
@[simp] theorem tail_setPrev (p : Option Nat) : (q.setPrev en p).tail = q.tail := rfl
@[simp] theorem head_setNext (n : Option Nat) : (q.setNext en n).head = q.head := rfl
@[simp] theorem head_setPrev (p : Option Nat) : (q.setPrev en p).head = q.head := rfl
@[simp] theorem fresh_setNext (n : Option Nat) : (q.setNext en n).fresh = q.fresh := rfl
@[simp] theorem fresh_setPrev (p : Option Nat) : (q.setPrev en p).fresh = q.fresh := rfl
@[simp] theorem next_mk (e : Nat → TxnQEntry τ) (n : Nat) (h t : Option Nat) :
    (TxnQueue.mk e n h t).next a = (e a).next := rfl
@[simp] theorem prev_mk (e : Nat → TxnQEntry τ) (n : Nat) (h t : Option Nat) :
    (TxnQueue.mk e n h t).prev a = (e a).prev := rfl
@[simp] theorem next_entry : (q.entry a).next = q.next a := rfl
@[simp] theorem prev_entry : (q.entry a).prev = q.prev a := rfl

theorem next_listPutTail : (q.listPutTail en).next a =
    if q.tail = some a then some en else if a = en then none else q.next a := by
  cases h : q.tail <;> simp [listPutTail, h, eq_comm (a := a)]

theorem prev_listPutTail :
    (q.listPutTail en).prev a = if a = en then q.tail else q.prev a := by
  cases h : q.tail <;> simp only [listPutTail, tail_setPrev, tail_setNext, h] <;>
    by_cases e : a = en <;> simp [e]

theorem txn_listPutTail : ((q.listPutTail en).entry a).txn = (q.entry a).txn := by
  cases h : q.tail <;> simp [listPutTail, h]

/-- The entries are linked in this order, and no entry at all names a transaction. -/
structure Holds (q : TxnQueue τ) (cells : List Nat) : Prop where
  linked : Doubly q.next q.prev q.head q.tail cells
  nodup : cells.Nodup
  allocated : ∀ a ∈ cells, a < q.fresh
  unnamed : ∀ a, (q.entry a).txn = none

/-- A new entry is outside the list and has no transaction. -/
theorem Holds.getQEntry (h : q.Holds cells) : q.getQEntry.1.Holds cells := by
  have old (a : Nat) (ha : a ∈ cells) : q.getQEntry.1.entry a = q.entry a :=
    Function.update_of_ne (Nat.ne_of_lt (h.allocated a ha)) ..
  refine ⟨?_, h.nodup, ?_, ?_⟩
  · apply h.linked.congr
    · intro a ha
      exact congrArg TxnQEntry.next (old a ha)
    · intro a ha
      exact congrArg TxnQEntry.prev (old a ha)
  · intro a ha
    exact Nat.lt_succ_of_lt (h.allocated a ha)
  · intro a
    change (Function.update q.entry q.fresh _ a).txn = none
    rw [Function.update_apply]
    split
    · rfl
    · exact h.unnamed a

/-- An entry outside the list is linked in as the last one. -/
theorem Holds.listPutTail (h : q.Holds cells) (outside : en ∉ cells) (lt : en < q.fresh) :
    (q.listPutTail en).Holds (cells ++ [en]) := by
  -- the entry that is put behind is the last one of the cells
  have tail : q.tail = cells.getLast? := h.linked.tail_eq
  have ne (a : Nat) (ha : a ∈ cells) : a ≠ en := by
    rintro rfl
    exact outside ha
  have linked := h.linked
  -- it is inserted before the empty rest
  rw [← List.append_nil cells] at linked
  constructor
  case linked =>
    apply linked.insert (by simpa using h.nodup)
    · have notTail : q.tail ≠ some en := by
        rw [tail]
        intro e
        exact outside (List.mem_of_getLast? e)
      rw [next_listPutTail, if_neg notTail, if_pos rfl, List.head?_nil]
    · rw [prev_listPutTail, if_pos rfl, tail]
    · intro a ha
      rw [next_listPutTail, if_neg (ne a (by simpa using ha)), tail]
    · intro a ha
      rw [prev_listPutTail, if_neg (ne a (by simpa using ha)), if_neg (by simp)]
    · unfold TxnQueue.listPutTail
      dsimp only [tail_setPrev, tail_setNext]
      rw [tail]
      cases cells with
      | nil => rfl
      | cons b cells => rw [if_neg (by simp), List.getLast?_cons]; rfl
    · unfold TxnQueue.listPutTail
      dsimp only
      split <;> rfl
  case nodup =>
    apply List.nodup_append.mpr
    refine ⟨h.nodup, List.nodup_singleton _, ?_⟩
    intro a ha b hb
    rw [List.mem_singleton] at hb
    rw [hb]
    exact ne a ha
  case allocated =>
    have fresh : (q.listPutTail en).fresh = q.fresh := by
      unfold TxnQueue.listPutTail
      dsimp only
      split <;> rfl
    intro a ha
    rw [fresh]
    rcases List.mem_append.mp ha with ha | ha
    · exact h.allocated a ha
    · rw [List.mem_singleton] at ha
      rw [ha]
      exact lt
  case unnamed =>
    intro a
    rw [txn_listPutTail]
    exact h.unnamed a

/-- `LIST_REMOVE_HT` of an entry that is the head, or the tail, where its links say so. -/
theorem listRemoveHT_spec (first : q.prev en = none → q.head = some en)
    (last : q.next en = none → q.tail = some en) : ∃ q', q.listRemoveHT en = some q' ∧
      (∀ a, q'.next a = if q.prev en = some a then q.next en else q.next a) ∧
      (∀ a, q'.prev a = if q.next en = some a then q.prev en else q.prev a) ∧
      q'.head = (if q.prev en = none then q.next en else q.head) ∧
      q'.tail = (if q.next en = none then q.prev en else q.tail) ∧ q'.fresh = q.fresh ∧
      ∀ a, (q'.entry a).txn = (q.entry a).txn := by
  -- the ends are moved where the entry has no neighbour, the neighbour is linked otherwise
  cases hn : q.next en with
  | none =>
    have ends := last hn
    cases hp : q.prev en with
    | none =>
      refine ⟨_, by simp [listRemoveHT, hn, hp, first hp, ends]; rfl, ?_⟩
      simp
    | some p =>
      refine ⟨_, by simp [listRemoveHT, hn, hp, ends]; rfl, ?_⟩
      simp [eq_comm (a := p)]
  | some n =>
    cases hp : q.prev en with
    | none =>
      refine ⟨_, by simp [listRemoveHT, hn, hp, first hp]; rfl, ?_⟩
      simp [eq_comm (a := n)]
    | some p =>
      refine ⟨_, by simp [listRemoveHT, hn, hp]; rfl, ?_⟩
      simp [eq_comm (a := n), eq_comm (a := p)]

/-- An entry of the list is taken out, and no assertion fails. -/
theorem Holds.listRemoveHT (h : q.Holds (front ++ en :: back)) :
    ∃ q', q.listRemoveHT en = some q' ∧ q'.Holds (front ++ back) := by
  have pred : q.prev en = front.getLast? := h.linked.prev_eq
  have succ : q.next en = back.head? := h.linked.forward.next_eq
  -- an entry without a neighbour stands at that end, so the two assertions hold
  have first : q.prev en = none → q.head = some en := by
    intro none
    rw [h.linked.forward.head_eq]
    exact ((head_eq_iff h.nodup).mpr (List.getLast?_eq_none_iff.mp (pred.symm.trans none))).symm
  have last : q.next en = none → q.tail = some en := by
    intro none
    rw [h.linked.tail_eq]
    exact ((getLast_eq_iff h.nodup).mpr (List.head?_eq_none_iff.mp (succ.symm.trans none))).symm
  obtain ⟨q', done, next, prev, head, tail, fresh, txn⟩ := listRemoveHT_spec first last
  have less : (front ++ back).Sublist (front ++ en :: back) :=
    (List.sublist_cons_self en back).append_left front
  refine ⟨q', done, ?_, h.nodup.sublist less, ?_, ?_⟩
  · apply h.linked.remove h.nodup
    · intro a _
      rw [next, pred, succ]
    · intro a _
      rw [prev, pred, succ]
    · simp only [head, pred, succ, List.getLast?_eq_none_iff]
    · simp only [tail, pred, succ, List.head?_eq_none_iff]
  · intro a ha
    rw [fresh]
    exact h.allocated a (less.subset ha)
  · intro a
    rw [txn]
    exact h.unnamed a

end TxnQueue

/-! ### The counters of the rows -/

section Counters

variable [DecidableEq ρ] {row : ρ → RowVll} {x : ρ} {accesses : List (Access ρ)}

/-- The read accesses to a row, and the others. -/
def reads (x : ρ) (accesses : List (Access ρ)) : Nat :=
  accesses.countP fun a => a.type = .RD ∧ a.origRow = x

def writes (x : ρ) (accesses : List (Access ρ)) : Nat :=
  accesses.countP fun a => a.type ≠ .RD ∧ a.origRow = x

theorem reads_cons (a : Access ρ) : reads x (a :: accesses) =
    reads x accesses + if a.type = .RD ∧ a.origRow = x then 1 else 0 := by
  simp only [reads, List.countP_cons, decide_eq_true_eq]

theorem writes_cons (a : Access ρ) : writes x (a :: accesses) =
    writes x accesses + if a.type ≠ .RD ∧ a.origRow = x then 1 else 0 := by
  simp only [writes, List.countP_cons, decide_eq_true_eq]

theorem one_le_reads {a : Access ρ} (mem : a ∈ accesses) (read : a.type = .RD) :
    1 ≤ reads a.origRow accesses :=
  List.countP_pos_iff.mpr ⟨a, mem, decide_eq_true ⟨read, rfl⟩⟩

theorem one_le_writes {a : Access ρ} (mem : a ∈ accesses) (write : a.type ≠ .RD) :
    1 ≤ writes a.origRow accesses :=
  List.countP_pos_iff.mpr ⟨a, mem, decide_eq_true ⟨write, rfl⟩⟩

/-- One access, at any row. -/
theorem insertAccess_counts (row : ρ → RowVll) (a : Access ρ) (x : ρ) :
    let r := ((row a.origRow).insertAccess a.type).1
    (Function.update row a.origRow r x).cs =
        (row x).cs + (if a.type = .RD ∧ a.origRow = x then 1 else 0) ∧
      (Function.update row a.origRow r x).cx =
        (row x).cx + if a.type ≠ .RD ∧ a.origRow = x then 1 else 0 := by
  dsimp only
  unfold RowVll.insertAccess
  by_cases same : x = a.origRow
  · subst same
    rw [Function.update_self]
    by_cases read : a.type = .RD <;> simp [read]
  · rw [Function.update_of_ne same]
    simp [Ne.symm same]

/-- The loop of `beginTxn` adds the accesses of the transaction. -/
theorem insertAccesses_counts (row : ρ → RowVll) (accesses : List (Access ρ)) (x : ρ) :
    ((insertAccesses row accesses).1 x).cs = (row x).cs + reads x accesses ∧
      ((insertAccesses row accesses).1 x).cx = (row x).cx + writes x accesses := by
  induction accesses generalizing row with
  | nil => exact ⟨rfl, rfl⟩
  | cons a accesses ih =>
    obtain ⟨cs, cx⟩ := insertAccess_counts row a x
    obtain ⟨restCs, restCx⟩ :=
      ih (Function.update row a.origRow ((row a.origRow).insertAccess a.type).1)
    rw [cs] at restCs
    rw [cx] at restCx
    rw [reads_cons, writes_cons]
    constructor
    · apply restCs.trans
      omega
    · apply restCx.trans
      omega

theorem insertAccesses_cons_blocked (a : Access ρ) : (insertAccesses row (a :: accesses)).2 =
    (((row a.origRow).insertAccess a.type).2 || (insertAccesses
      (Function.update row a.origRow ((row a.origRow).insertAccess a.type).1) accesses).2) := rfl

/-- If no access is blocked, the rows had no access that conflicts. -/
theorem insertAccesses_free (free : (insertAccesses row accesses).2 = false) {a : Access ρ}
    (mem : a ∈ accesses) :
    (row a.origRow).cx = 0 ∧ (a.type ≠ .RD → (row a.origRow).cs = 0) := by
  induction accesses generalizing row with
  | nil => cases mem
  | cons b accesses ih =>
    rw [insertAccesses_cons_blocked] at free
    obtain ⟨blocked, others⟩ := Bool.or_eq_false_iff.mp free
    rcases List.mem_cons.mp mem with rfl | mem
    · unfold RowVll.insertAccess at blocked
      by_cases read : a.type = .RD
      · simp only [read, if_true, decide_eq_false_iff_not] at blocked
        exact ⟨by omega, fun write => absurd read write⟩
      · simp only [read, if_false, Bool.or_eq_false_iff, decide_eq_false_iff_not] at blocked
        exact ⟨by omega, fun _ => by omega⟩
    · -- the counters have not become smaller before the access was inserted
      obtain ⟨cs, cx⟩ := insertAccess_counts row b a.origRow
      obtain ⟨none, noRead⟩ := ih others mem
      rw [cx] at none
      refine ⟨by omega, fun write => ?_⟩
      have := noRead write
      rw [cs] at this
      omega

/-- The loop of `finishTxn` takes accesses away that were counted. -/
theorem removeAccesses_spec (row : ρ → RowVll) (accesses : List (Access ρ))
    (enough : ∀ x, reads x accesses ≤ (row x).cs ∧
      writes x accesses ≤ (row x).cx) :
    ∃ row', removeAccesses row accesses = some row' ∧
      ∀ x, (row' x).cs = (row x).cs - reads x accesses ∧
        (row' x).cx = (row x).cx - writes x accesses := by
  induction accesses generalizing row with
  | nil => exact ⟨row, rfl, fun x => ⟨rfl, rfl⟩⟩
  | cons a accesses ih =>
    have mine := enough a.origRow
    rw [reads_cons, writes_cons] at mine
    -- the first access is counted at its row
    obtain ⟨r, removed, cs, cx⟩ : ∃ r, (row a.origRow).removeAccess a.type = some r ∧
        r.cs = (row a.origRow).cs - (if a.type = .RD then 1 else 0) ∧
          r.cx = (row a.origRow).cx - if a.type ≠ .RD then 1 else 0 := by
      unfold RowVll.removeAccess
      by_cases read : a.type = .RD
      · simp only [read, ne_eq, not_true_eq_false, and_true, if_true, if_false] at mine ⊢
        exact ⟨_, if_pos (by omega), rfl, rfl⟩
      · simp only [read, ne_eq, not_false_eq_true, and_true, if_true, if_false] at mine ⊢
        exact ⟨_, if_pos (by omega), rfl, rfl⟩
    have after (x : ρ) : (Function.update row a.origRow r x).cs =
          (row x).cs - (if a.type = .RD ∧ a.origRow = x then 1 else 0) ∧
        (Function.update row a.origRow r x).cx =
          (row x).cx - if a.type ≠ .RD ∧ a.origRow = x then 1 else 0 := by
      by_cases same : x = a.origRow
      · subst same
        rw [Function.update_self, cs, cx]
        simp
      · rw [Function.update_of_ne same]
        simp [Ne.symm same]
    -- the rest is counted at the row that is left
    obtain ⟨row', rest, counts⟩ := ih (Function.update row a.origRow r) (by
      intro x
      have := enough x
      rw [reads_cons, writes_cons] at this
      rw [(after x).1, (after x).2]
      omega)
    refine ⟨row', ?_, fun x => ?_⟩
    · rw [removeAccesses, removed]
      exact rest
    · rw [(counts x).1, (counts x).2, (after x).1, (after x).2, reads_cons, writes_cons]
      omega

end Counters

/-! ### The invariant -/

/-- Two transactions access a row, not both to read it. -/
def Conflict (as bs : List (Access ρ)) : Prop :=
  ∃ a ∈ as, ∃ b ∈ bs, a.origRow = b.origRow ∧ ¬ (a.type = .RD ∧ b.type = .RD)

/-- The worker executes or finishes its own transaction. -/
def Pc.own : Pc τ → Option (τ × Nat)
  | .execute txn entry | .finish txn entry => some (txn, entry)
  | _ => none

/-- The worker has found a transaction at the front. -/
def Pc.atFront : Pc τ → Bool
  | .executeFront .. | .finishFront .. => true
  | _ => false

theorem Pc.txn_own {pc : Pc τ} {t : τ} {en : Nat} (own : pc.own = some (t, en)) :
    pc.txn = some t := by
  cases pc <;> simp_all [Pc.own, Pc.txn]

/-- A transaction anywhere in the queue adds to a sum. -/
theorem sum_middle (f : Begun ρ τ → Nat) (front back : List (Begun ρ τ)) (b : Begun ρ τ) :
    ((front ++ b :: back).map f).sum = ((front ++ back).map f).sum + f b := by
  simp only [List.map_append, List.map_cons, List.sum_append, List.sum_cons]
  omega

variable [DecidableEq ρ]

structure VllInv (s : VllState ρ τ ω) : Prop where
  holds : s.queue.Holds (s.queued.map (·.entry))
  counted : ∀ x, (s.row x).cs = (s.queued.map fun b => reads x b.accesses).sum ∧
    (s.row x).cx = (s.queued.map fun b => writes x b.accesses).sum
  apart : s.queued.Pairwise fun a b => b.type = .VLL_Free → ¬ Conflict a.accesses b.accesses
  running : ∀ w t, (s.pc w).txn = some t →
    s.running t = true ∧ ∀ w', (s.pc w').txn = some t → w' = w
  own : ∀ w t en, (s.pc w).own = some (t, en) → ∃ b ∈ s.queued, b.entry = en ∧ b.txn = t ∧
    b.accesses = (s.txn t).accesses ∧ b.type = .VLL_Free
  front : ∀ w, (s.pc w).atFront = false

namespace VllState

/-- The transaction that the worker is about to execute has reads and writes only. -/
def Plain (s : VllState ρ τ ω) (w : ω) : Prop :=
  ∀ t, (s.pc w).executes = some t → ∀ a ∈ (s.txn t).accesses, a.type = .RD ∨ a.type = .WR

theorem plain_of_step [DecidableEq τ] [DecidableEq ω] {s s' : VllState ρ τ ω} {w : ω}
    (next : s.step (.next w) = some s') : s.Plain w := by
  intro t executes
  have run : (s.execute t).isSome := by
    cases pc : s.pc w with
    | execute u en | executeFront u f en =>
      rw [pc] at executes
      cases executes
      simp only [VllState.step, pc] at next
      obtain ⟨_, done, -⟩ := Option.map_eq_some_iff.mp next
      rw [done]
      rfl
    | _ =>
      rw [pc] at executes
      cases executes
  by_contra odd
  rw [execute, if_neg odd] at run
  cases run

end VllState

namespace VllInv

variable [DecidableEq τ] [DecidableEq ω] {s s' : VllState ρ τ ω} {w : ω} {t : τ} {en : Nat}

omit [DecidableEq τ] [DecidableEq ω] in
/-- No entry names a transaction, so none is found at the front. -/
theorem frontTxn (inv : VllInv s) : s.frontTxn = none := by
  unfold VllState.frontTxn
  cases s.queue.head with
  | none => rfl
  | some front => exact inv.holds.unnamed front

theorem iterate_eq (inv : VllInv s) : s.iterate w t =
    if (s.beginTxn t).2.2 = 2 then (s.beginTxn t).1.goto w (.execute t s.queue.fresh)
    else (s.beginTxn t).1.leave w t := by
  unfold VllState.iterate
  rw [inv.frontTxn]
  cases s.queue.head <;> rfl

omit [DecidableEq τ] [DecidableEq ω] in
/-- The worker of a running transaction is the only one that is in a call with it. -/
theorem others (inv : VllInv s) (mine : (s.pc w).txn = some t) {u : ω} (ne : u ≠ w) :
    (s.pc u).txn ≠ some t := by
  intro same
  exact ne ((inv.running w t mine).2 u same)

omit [DecidableEq ρ] [DecidableEq τ] in
/-- A worker that goes on keeps its transaction. -/
theorem txn_goto {pc : Pc τ} (same : pc.txn = (s.pc w).txn) (u : ω) :
    ((s.goto w pc).pc u).txn = (s.pc u).txn := by
  unfold VllState.goto
  dsimp only
  rw [Function.update_apply]
  split
  · next e => rw [e, same]
  · rfl

omit [DecidableEq ρ] [DecidableEq ω] in
theorem accesses_setType (type : TxnType) (u : τ) :
    ((s.setType t type).txn u).accesses = (s.txn u).accesses := by
  unfold VllState.setType
  dsimp only
  rw [Function.update_apply]
  split
  · next e => rw [e]
  · rfl

omit [DecidableEq ρ] in
/-- Leaving does not matter to the other workers. -/
theorem pc_leave {u : ω} : ((s.leave w t).pc u) = if u = w then .idle else s.pc u := by
  change Function.update s.pc w _ u = _
  rw [Function.update_apply]

/-- The worker leaves with a transaction that it does not execute any more. -/
theorem leave (inv : VllInv s) (mine : (s.pc w).txn = some t) : VllInv (s.leave w t) := by
  constructor
  case holds => exact inv.holds
  case counted => exact inv.counted
  case apart => exact inv.apart
  -- no other worker is in a call of `t`
  case running =>
    intro u v busy
    rw [pc_leave] at busy
    split at busy
    · cases busy
    · next ne =>
      have other : v ≠ t := by
        rintro rfl
        exact inv.others mine ne busy
      refine ⟨?_, fun u' busy' => ?_⟩
      · change Function.update s.running t false v = true
        rw [Function.update_of_ne other]
        exact (inv.running u v busy).1
      · rw [pc_leave] at busy'
        split at busy'
        · cases busy'
        · exact (inv.running u v busy).2 u' busy'
  case own =>
    intro u v en own
    rw [pc_leave] at own
    split at own
    · cases own
    · exact inv.own u v en own
  case front =>
    intro u
    rw [pc_leave]
    split
    · rfl
    · exact inv.front u

omit [DecidableEq τ] in
/-- A worker goes on, with its own transaction if with any. -/
theorem goto {pc : Pc τ} (inv : VllInv s) (same : pc.txn = (s.pc w).txn)
    (own : ∀ t en, pc.own = some (t, en) → ∃ b ∈ s.queued, b.entry = en ∧ b.txn = t ∧
      b.accesses = (s.txn t).accesses ∧ b.type = .VLL_Free)
    (front : pc.atFront = false) : VllInv (s.goto w pc) := by
  refine ⟨inv.holds, inv.counted, inv.apart, ?_, ?_, ?_⟩
  · intro u v busy
    rw [txn_goto same] at busy
    refine ⟨(inv.running u v busy).1, fun u' busy' => ?_⟩
    rw [txn_goto same] at busy'
    exact (inv.running u v busy).2 u' busy'
  · intro u v en is
    change (Function.update s.pc w _ u).own = _ at is
    rw [Function.update_apply] at is
    split at is
    · exact own v en is
    · exact inv.own u v en is
  · intro u
    change (Function.update s.pc w _ u).atFront = false
    rw [Function.update_apply]
    split
    · exact front
    · exact inv.front u

/-- A worker calls `vllMainLoop`. -/
theorem call {accesses : List (Access ρ)} (inv : VllInv s)
    (next : s.step (.call w t accesses) = some s') : VllInv s' := by
  obtain ⟨⟨idle, stopped⟩, e⟩ := (Option.ite_none_right_eq_some).mp next
  cases e
  -- `t` was not running, so no worker is in a call of it
  have ne {u : ω} {v : τ} (busy : (s.pc u).txn = some v) : v ≠ t := by
    rintro rfl
    have := (inv.running u v busy).1
    rw [stopped] at this
    cases this
  constructor
  case holds => exact inv.holds
  case counted => exact inv.counted
  case apart => exact inv.apart
  case running =>
    intro u v busy
    change (Function.update s.pc w _ u).txn = some v at busy
    rw [Function.update_apply] at busy
    split at busy
    · next is =>
      cases busy
      refine ⟨Function.update_self .., ?_⟩
      intro u' busy'
      change (Function.update s.pc w _ u').txn = _ at busy'
      rw [Function.update_apply] at busy'
      split at busy'
      · next is' => rw [is, is']
      · exact absurd rfl (ne busy')
    · next other =>
      refine ⟨?_, ?_⟩
      · change Function.update s.running t true v = true
        rw [Function.update_of_ne (ne busy)]
        exact (inv.running u v busy).1
      · intro u' busy'
        change (Function.update s.pc w _ u').txn = _ at busy'
        rw [Function.update_apply] at busy'
        split at busy'
        · cases busy'
          exact absurd rfl (ne busy)
        · exact (inv.running u v busy).2 u' busy'
  -- an entry belongs to a transaction that is being executed, and `t` is not yet
  case own =>
    intro u v en own
    change (Function.update s.pc w _ u).own = _ at own
    rw [Function.update_apply] at own
    split at own
    · cases own
    · obtain ⟨b, hb, entry, txn, accesses, type⟩ := inv.own u v en own
      refine ⟨b, hb, entry, txn, accesses.trans ?_, type⟩
      change _ = (Function.update s.txn t _ v).accesses
      rw [Function.update_of_ne (ne (Pc.txn_own own))]
  case front =>
    intro u
    change (Function.update s.pc w _ u).atFront = false
    rw [Function.update_apply]
    split
    · rfl
    · exact inv.front u

omit [DecidableEq ω] in
/-- What `beginTxn` leaves, before the worker goes on. -/
theorem beginTxn (inv : VllInv s) (t : τ) : ∃ b, b.entry = s.queue.fresh ∧ b.txn = t ∧ b.accesses = (s.txn t).accesses ∧ (s.beginTxn t).1.queued = s.queued ++ [b] ∧
    ((s.beginTxn t).2.2 = 2 → b.type = .VLL_Free) ∧ VllInv (s.beginTxn t).1 := by
  have same (u : τ) : ((s.beginTxn t).1.txn u).accesses = (s.txn u).accesses := by
    change (((s.setType t _).setType t _).txn u).accesses = _
    rw [accesses_setType, accesses_setType]
  have mine : ((s.setType t .VLL_Free).txn t).accesses = (s.txn t).accesses :=
    accesses_setType ..
  let accesses := ((s.setType t .VLL_Free).txn t).accesses
  let inserted := insertAccesses s.row accesses
  let b : Begun ρ τ :=
    ⟨s.queue.fresh, t, accesses, if inserted.2 then .VLL_Blocked else .VLL_Free⟩
  have queued : (s.beginTxn t).1.queued = s.queued ++ [b] := rfl
  -- the queue has never given out this entry
  have unused : s.queue.fresh ∉ s.queued.map (·.entry) := by
    intro mem
    exact Nat.lt_irrefl _ (inv.holds.allocated _ mem)
  refine ⟨b, rfl, rfl, mine, queued, ?_, ?_⟩
  · intro free
    change (if (if inserted.2 then TxnType.VLL_Blocked else .VLL_Free) = .VLL_Blocked then 1 else 2)
      = 2 at free
    change (if inserted.2 then TxnType.VLL_Blocked else .VLL_Free) = .VLL_Free
    cases blocked : inserted.2 with
    | true =>
      rw [blocked] at free
      cases free
    | false => rfl
  · constructor
    case holds =>
      have linked := inv.holds.getQEntry.listPutTail unused (Nat.lt_succ_self _)
      rw [queued, List.map_append]
      exact linked
    -- the new accesses are added to both sides
    case counted =>
      intro x
      obtain ⟨cs, cx⟩ := insertAccesses_counts s.row accesses x
      obtain ⟨counted, counted'⟩ := inv.counted x
      rw [queued, List.map_append, List.map_append, List.sum_append, List.sum_append, ← counted,
        ← counted']
      rw [List.map_singleton, List.map_singleton, List.sum_singleton, List.sum_singleton]
      exact ⟨cs, cx⟩
    case apart =>
      rw [queued]
      apply List.pairwise_append.mpr
      refine ⟨inv.apart, List.pairwise_singleton .., ?_⟩
      intro c hc d hd free
      rw [List.mem_singleton] at hd
      subst hd
      -- a free transaction met no count at its rows
      have unblocked : inserted.2 = false := by
        change (if inserted.2 then TxnType.VLL_Blocked else .VLL_Free) = .VLL_Free at free
        cases blocked : inserted.2 with
        | true => rw [blocked] at free; cases free
        | false => rfl
      rintro ⟨a, ha, a', ha', same, notReads⟩
      -- the access ahead is counted at the row
      obtain ⟨none, noRead⟩ := insertAccesses_free unblocked ha'
      obtain ⟨cs, cx⟩ := inv.counted a'.origRow
      obtain ⟨front, back, split⟩ := List.append_of_mem hc
      rw [split, sum_middle] at cs cx
      by_cases read : a.type = .RD
      · have := one_le_reads ha read
        rw [same] at this
        have := noRead fun read' => notReads ⟨read, read'⟩
        omega
      · have := one_le_writes ha read
        rw [same] at this
        omega
    case running => exact inv.running
    case own =>
      intro u v en own
      obtain ⟨c, hc, entry, txn, accesses, type⟩ := inv.own u v en own
      refine ⟨c, ?_, entry, txn, accesses.trans (same v).symm, type⟩
      rw [queued]
      exact List.mem_append_left _ hc
    case front => exact inv.front

/-- The worker begins its transaction; it goes on with it or leaves. -/
theorem iterate (inv : VllInv s) (pc : s.pc w = .loop t) : VllInv (s.iterate w t) := by
  have mine : (s.pc w).txn = some t := by rw [pc]; rfl
  obtain ⟨b, entry, txn, accesses, queued, free, after⟩ := inv.beginTxn t
  have kept (u : τ) : ((s.beginTxn t).1.txn u).accesses = (s.txn u).accesses := by
    change (((s.setType t _).setType t _).txn u).accesses = _
    rw [accesses_setType, accesses_setType]
  rw [inv.iterate_eq]
  split
  · next ok =>
    refine after.goto (w := w) mine.symm ?_ rfl
    intro v en own
    cases own
    refine ⟨b, ?_, entry, txn, accesses.trans (kept t).symm, free ok⟩
    rw [queued]
    exact List.mem_append_right _ List.mem_cons_self
  · exact after.leave mine

omit [DecidableEq τ] [DecidableEq ω] in
/-- A queued transaction is finished while nobody executes it. -/
theorem finishTxn {b : Begun ρ τ} (inv : VllInv s) (mem : b ∈ s.queued) (entry : b.entry = en)
    (accesses : b.accesses = (s.txn t).accesses) (txn : b.txn = t)
    (nobody : ∀ w en, (s.pc w).own ≠ some (t, en)) :
    ∃ s', s.finishTxn t en = some s' ∧ VllInv s' ∧ s'.pc = s.pc ∧
      ∀ c, c ∈ s'.queued ↔ c ∈ s.queued ∧ c ≠ b := by
  obtain ⟨front, back, split⟩ := List.append_of_mem mem
  have cells : s.queued.map (·.entry) = front.map (·.entry) ++ en :: back.map (·.entry) := by
    rw [split, List.map_append, List.map_cons, entry]
  have holds := inv.holds
  rw [cells] at holds
  obtain ⟨queue, unlinked, linked⟩ := holds.listRemoveHT
  -- the accesses of `b` are part of the counts, so each of them can be taken off
  have counts (x : ρ) := inv.counted x
  simp only [split, sum_middle] at counts
  obtain ⟨row, removed, left⟩ := removeAccesses_spec s.row (s.txn t).accesses (by
      intro x
      rw [(counts x).1, (counts x).2, ← accesses]
      omega)
  -- the entries are distinct, so `b` is the one that is erased
  have distinct := holds.nodup
  have others (c : Begun ρ τ) (hc : c ∈ front ++ back) : c.entry ≠ en := by
    intro same
    apply (List.nodup_middle.mp distinct).notMem
    rw [← List.map_append, ← same]
    exact List.mem_map_of_mem hc
  have erased : s.queued.eraseP (·.entry = en) = front ++ back := by
    rw [split, List.eraseP_append_right, List.eraseP_cons_of_pos (by simpa using entry)]
    intro c hc
    simpa using others c (List.mem_append_left _ hc)
  have stays (c : Begun ρ τ) : c ∈ front ++ back ↔ c ∈ s.queued ∧ c ≠ b := by
    rw [split]
    constructor
    · intro hc
      refine ⟨by simp only [List.mem_append, List.mem_cons] at hc ⊢; tauto, ?_⟩
      rintro rfl
      exact others c hc entry
    · rintro ⟨hc, ne⟩
      simp only [List.mem_append, List.mem_cons] at hc ⊢
      tauto
  have done : s.finishTxn t en = some { s with
      row := row
      queue := queue
      queued := s.queued.eraseP (·.entry = en) } := by
    unfold VllState.finishTxn
    rw [removed, unlinked]
    rfl
  refine ⟨_, done, ?_, rfl, ?_⟩
  · constructor
    case holds =>
      dsimp only
      rw [erased, List.map_append]
      exact linked
    case counted =>
      intro x
      dsimp only
      rw [erased, (left x).1, (left x).2, (counts x).1, (counts x).2, ← accesses]
      omega
    case apart =>
      dsimp only
      rw [erased]
      have apart := inv.apart
      rw [split] at apart
      exact apart.sublist ((List.sublist_cons_self b back).append_left front)
    case running => exact inv.running
    -- the entries of other transactions stay
    case own =>
      intro u v en' own
      have ne : v ≠ t := by
        rintro rfl
        exact nobody u en' own
      obtain ⟨c, hc, entry', txn', accesses', type⟩ := inv.own u v en' own
      refine ⟨c, ?_, entry', txn', accesses', type⟩
      dsimp only
      rw [erased, stays]
      refine ⟨hc, ?_⟩
      rintro rfl
      exact ne (txn'.symm.trans txn)
    case front => exact inv.front
  · intro c
    dsimp only
    rw [erased]
    exact stays c

/-- What a worker in `vllMainLoop` does next. No assertion fails but that of `execute`, and only
the worker of a transaction that was free finishes it. -/
theorem next (inv : VllInv s) (busy : s.pc w ≠ .idle) (plain : s.Plain w) :
    ∃ s', s.step (.next w) = some s' ∧ VllInv s' ∧ ∀ c ∈ s.queued, c.type = .VLL_Blocked → c ∈ s'.queued := by
  have front := inv.front w
  cases pc : s.pc w with
  | idle => exact absurd pc busy
  | loop t =>
    refine ⟨s.iterate w t, by simp only [VllState.step, pc], inv.iterate pc, ?_⟩
    intro c hc _
    obtain ⟨b, -, -, -, queued, -, -⟩ := inv.beginTxn t
    have still : c ∈ (s.beginTxn t).1.queued := by
      rw [queued]
      exact List.mem_append_left _ hc
    rw [inv.iterate_eq]
    split
    · exact still
    · exact still
  | execute t en =>
    -- the only assertion on the way is the one about the type
    have passes := plain t (by rw [pc]; rfl)
    refine ⟨{ s.goto w (.finish t en) with executed := s.executed ++ [t] }, ?_, ?_,
      fun c hc _ => hc⟩
    · simp only [VllState.step, pc]
      rw [VllState.execute, if_pos passes]
      rfl
    have after : VllInv (s.goto w (.finish t en)) := by
      apply inv.goto
      · rw [pc]
        rfl
      · intro v en' own
        apply inv.own w
        rw [pc]
        exact own
      · rfl
    exact ⟨after.holds, after.counted, after.apart, after.running, after.own, after.front⟩
  | finish t en =>
    -- the entry the worker executes is in the queue
    obtain ⟨b, mem, entry, txn, accesses, type⟩ := inv.own w t en (by rw [pc]; rfl)
    have mine : (s.pc w).txn = some t := by rw [pc]; rfl
    -- seen by the others, the worker is in its call but executes nothing any more
    have waits : VllInv (s.goto w (.loop t)) := inv.goto mine.symm (fun _ _ own => by cases own) rfl
    obtain ⟨s₁, done, after, pcs, queued⟩ := waits.finishTxn (b := b) mem entry accesses txn (by
      intro u en' own
      change (Function.update s.pc w _ u).own = _ at own
      rw [Function.update_apply] at own
      split at own
      · cases own
      · next ne => exact inv.others mine ne (Pc.txn_own own))
    -- `finishTxn` does not look at the workers
    have same : (s.finishTxn t en).map (fun s => s.goto w (.loop t)) = some s₁ := by
      rw [← done]
      unfold VllState.finishTxn VllState.goto
      cases removeAccesses s.row (s.txn t).accesses with
      | none => rfl
      | some row =>
        cases s.queue.listRemoveHT en with
        | none => rfl
        | some queue => rfl
    obtain ⟨s₂, finished, rfl⟩ := Option.map_eq_some_iff.mp same
    refine ⟨s₂.leave w t, by simp only [VllState.step, pc, finished]; rfl, ?_, ?_⟩
    · have left := after.leave (w := w) (t := t) (by
        rw [pcs]
        change (Function.update s.pc w _ w).txn = _
        rw [Function.update_self]
        rfl)
      have idem : (s₂.goto w (.loop t)).leave w t = s₂.leave w t := by
        unfold VllState.leave VllState.goto
        dsimp only
        rw [Function.update_idem]
      rw [← idem]
      exact left
    · -- the entry that leaves was a free one
      intro c hc blocked
      apply (queued c).mpr
      refine ⟨hc, ?_⟩
      rintro rfl
      rw [type] at blocked
      cases blocked
  | executeFront t f en =>
    rw [pc] at front
    cases front
  | finishFront t f en =>
    rw [pc] at front
    cases front

theorem step {l : VllLabel ρ τ ω} (inv : VllInv s) (next : s.step l = some s') :
    VllInv s' ∧ ∀ c ∈ s.queued, c.type = .VLL_Blocked → c ∈ s'.queued := by
  cases l with
  | call w t accesses =>
    refine ⟨inv.call next, fun c hc _ => ?_⟩
    obtain ⟨-, e⟩ := (Option.ite_none_right_eq_some).mp next
    cases e
    exact hc
  | next w =>
    have busy : s.pc w ≠ .idle := by
      intro idle
      simp only [VllState.step, idle] at next
      cases next
    obtain ⟨s₁, done, after, kept⟩ := inv.next busy (VllState.plain_of_step next)
    rw [done] at next
    cases next
    exact ⟨after, kept⟩

omit [DecidableEq τ] [DecidableEq ω] in
theorem init (rows : ∀ x, s.row x = ⟨0, 0⟩) (queue : s.queue = .init) (pc : ∀ w, s.pc w = .idle)
    (queued : s.queued = []) : VllInv s := by
  refine ⟨?_, ?_, ?_, ?_, ?_, ?_⟩
  · rw [queue, queued]
    exact ⟨⟨rfl, rfl⟩, List.nodup_nil, by simp, fun _ => rfl⟩
  · intro x
    rw [rows, queued]
    exact ⟨rfl, rfl⟩
  · rw [queued]
    exact .nil
  · intro w t busy
    rw [pc] at busy
    cases busy
  · intro w t en own
    rw [pc] at own
    cases own
  · intro w
    rw [pc]
    rfl

end VllInv

/-! ### The results -/

variable [DecidableEq τ] [DecidableEq ω] {s : VllState ρ τ ω}

theorem vllInv_of_reachable (reached : (vllMachine ρ τ ω).Reachable Free s) : VllInv s := by
  refine reached.invariant (I := VllInv) ?_ ?_
  · rintro s ⟨rows, -, queue, pc, -, -, queued⟩
    exact .init rows queue pc queued
  · intro s l s' inv _ next
    exact (inv.step next).1

namespace VllState

/-- The list of entries is that of the begun transactions, in the order of `beginTxn`. -/
def InOrder (s : VllState ρ τ ω) : Prop :=
  Doubly s.queue.next s.queue.prev s.queue.head s.queue.tail (s.queued.map (·.entry))

/-- Each entry of the queue names its transaction. -/
def Named (s : VllState ρ τ ω) : Prop :=
  ∀ b ∈ s.queued, (s.queue.entry b.entry).txn = some b.txn

/-- The rows count the accesses of the queued transactions. -/
def Counted (s : VllState ρ τ ω) : Prop :=
  ∀ x, (s.row x).cs = (s.queued.map fun b => reads x b.accesses).sum ∧
    (s.row x).cx = (s.queued.map fun b => writes x b.accesses).sum

/-- A transaction that `beginTxn` marked free conflicts with none ahead of it. -/
def FreeApart (s : VllState ρ τ ω) : Prop :=
  s.queued.Pairwise fun a b => b.type = .VLL_Free → ¬ Conflict a.accesses b.accesses

/-- A blocked transaction at the front is what any worker takes in its next round. -/
def FrontServed (s : VllState ρ τ ω) : Prop :=
  ∀ b ∈ s.queued.head?, (s.txn b.txn).vllTxnType = .VLL_Blocked →
    ∀ w t, s.pc w = .loop t →
      (s.iterate w t).pc w = .executeFront t b.txn b.entry

end VllState

/-- All that is expected of the queue. -/
structure VllState.Correct (s : VllState ρ τ ω) : Prop where
  inOrder : s.InOrder
  named : s.Named
  counted : s.Counted
  freeApart : s.FreeApart
  frontServed : s.FrontServed

/-- **Accounting of VLL.** In every state of every run the order of the queue, the counters
and the free transactions are as they should be, and no assertion stops a worker but that of
`execute` on an access that is neither a read nor a write. But all that is expected, with entries that name their transactions, holds in the states in which no
transaction is begun and unfinished, and never else. -/
theorem vll_accounts (s : VllState ρ τ ω) (reached : (vllMachine ρ τ ω).Reachable Free s) :
    (s.Correct ↔ s.queued = []) ∧ s.InOrder ∧ s.Counted ∧ s.FreeApart ∧
      ∀ w, s.pc w ≠ .idle → ((s.step (.next w)).isSome ↔ s.Plain w) := by
  have inv := vllInv_of_reachable reached
  refine ⟨⟨?_, ?_⟩, inv.holds.linked, inv.counted, inv.apart, ?_⟩
  · -- no entry is ever named, so the queue is right only while it is empty
    intro correct
    cases queued : s.queued with
    | nil => rfl
    | cons b rest =>
      have name := correct.named b (by rw [queued]; exact List.mem_cons_self)
      rw [inv.holds.unnamed] at name
      cases name
  · intro empty
    refine ⟨inv.holds.linked, ?_, inv.counted, inv.apart, ?_⟩
    · intro b hb
      rw [empty] at hb
      cases hb
    · intro b hb
      rw [empty] at hb
      cases hb
  · intro w busy
    constructor
    · intro goes
      obtain ⟨s', done⟩ := Option.isSome_iff_exists.mp goes
      exact VllState.plain_of_step done
    · intro plain
      obtain ⟨s', done, -⟩ := inv.next busy plain
      rw [done]
      rfl

/-- Rows, transactions and workers are numbers. -/
def VllState.start : VllState Nat Nat Nat where
  row _ := ⟨0, 0⟩
  txn _ := ⟨[], .VLL_Free⟩
  queue := .init
  pc _ := .idle
  running _ := false
  executed := []
  queued := []

theorem VllState.start_init : (vllMachine Nat Nat Nat).init .start :=
  ⟨fun _ => rfl, fun _ => rfl, rfl, fun _ => rfl, fun _ => rfl, rfl, rfl⟩

/-- Transactions 10 and 11 read row 1, and 10 writes row 0. Both are free. -/
def readers : List (VllLabel Nat Nat Nat) :=
  [.call 0 10 [⟨.WR, 0⟩, ⟨.RD, 1⟩], .call 1 11 [⟨.RD, 1⟩, ⟨.RD, 2⟩], .next 0, .next 1]

/-- Transaction 11 is finished before 10, which is ahead of it. A writer of row 1 that was begun
meanwhile stays in the queue; without it, the queue is as expected in the end. -/
theorem vll_accounts_readers : (∃ s : VllState Nat Nat Nat,
    (vllMachine Nat Nat Nat).Reachable Free s ∧ s.executed = [11] ∧
      s.queued.map (fun b => (b.txn, b.type)) = [(10, .VLL_Free), (12, .VLL_Blocked)] ∧
        ¬ s.Correct ∧ s.InOrder ∧ s.Counted ∧ s.FreeApart) ∧
    ∃ s : VllState Nat Nat Nat,
      (vllMachine Nat Nat Nat).Reachable Free s ∧ s.executed = [11, 10] ∧ s.Correct := by
  constructor
  · obtain ⟨s, path, e⟩ := (vllMachine Nat Nat Nat).exists_along Free .start
      (readers ++ [.call 2 12 [⟨.WR, 1⟩], .next 2, .next 1, .next 1])
      (fun s => (s.executed, s.queued.map fun b => (b.txn, b.type)))
      ([11], [(10, .VLL_Free), (12, .VLL_Blocked)]) (by decide)
    obtain ⟨executed, queued⟩ := Prod.mk.inj e
    have reached : (vllMachine Nat Nat Nat).Reachable Free s := ⟨_, _, VllState.start_init, path⟩
    obtain ⟨exact, inOrder, counted, apart, -⟩ := vll_accounts s reached
    refine ⟨s, reached, executed, queued, fun correct => ?_, inOrder, counted, apart⟩
    rw [exact.mp correct] at queued
    cases queued
  · obtain ⟨s, path, e⟩ := (vllMachine Nat Nat Nat).exists_along Free .start
      (readers ++ [.next 1, .next 1, .next 0, .next 0])
      (fun s => (s.executed, s.queued.map (·.entry))) ([11, 10], []) (by decide)
    obtain ⟨executed, empty⟩ := Prod.mk.inj e
    have reached : (vllMachine Nat Nat Nat).Reachable Free s := ⟨_, _, VllState.start_init, path⟩
    exact ⟨s, reached, executed,
      (vll_accounts s reached).1.mpr (List.map_eq_nil_iff.mp empty)⟩

/-- Two writers of a row, of whom the second is blocked, and a third transaction that is
begun when the first one has finished. -/
def writers : List (VllLabel Nat Nat Nat) :=
  [.call 0 10 [⟨.WR, 0⟩], .next 0, .call 1 11 [⟨.WR, 0⟩], .next 1, .next 0, .next 0,
    .call 2 12 [⟨.WR, 1⟩]]

/-- The blocked transaction is at the front, its entry does not name it, and the worker that
comes next executes its own transaction instead. -/
theorem vll_forgets_blocked : ∃ s : VllState Nat Nat Nat,
    (vllMachine Nat Nat Nat).Reachable Free s ∧ s.queued.map (·.txn) = [11] ∧
      (s.txn 11).vllTxnType = .VLL_Blocked ∧ s.pc 2 = .loop 12 ∧
      (s.iterate 2 12).pc 2 = .execute 12 2 ∧ ¬ s.Correct := by
  obtain ⟨s, path, e⟩ := (vllMachine Nat Nat Nat).exists_along Free .start writers
    (fun s => (s.queued.map (fun b => (b.txn, (s.queue.entry b.entry).txn)),
      (s.txn 11).vllTxnType, s.pc 2, (s.iterate 2 12).pc 2))
    ([(11, none)], .VLL_Blocked, .loop 12, .execute 12 2) (by decide)
  simp only [Prod.mk.injEq] at e
  obtain ⟨queued, blocked, loop, instead⟩ := e
  obtain ⟨b, single, both⟩ := List.map_eq_singleton_iff.mp queued
  obtain ⟨txn, unnamed⟩ := Prod.mk.inj both
  refine ⟨s, ⟨_, _, VllState.start_init, path⟩, ?_, blocked, loop, instead, ?_⟩
  · rw [single, List.map_singleton, txn]
  · intro correct
    have name := correct.named b (by rw [single]; exact List.mem_cons_self)
    rw [unnamed] at name
    cases name

/-- A blocked transaction stays in the queue for ever, and with it its counts. -/
theorem vll_blocked_stays {s' : VllState ρ τ ω} {ls : List (VllLabel ρ τ ω)}
    (reached : (vllMachine ρ τ ω).Reachable Free s) (run : (vllMachine ρ τ ω).Along Free s ls s')
    {b : Begun ρ τ} (mem : b ∈ s.queued) (blocked : b.type = .VLL_Blocked) : b ∈ s'.queued := by
  have kept := run.preserves (I := fun s => VllInv s ∧ b ∈ s.queued) (fun s l s' inv _ next => by
    obtain ⟨after, still⟩ := inv.1.step next
    exact ⟨after, still b inv.2 blocked⟩) ⟨vllInv_of_reachable reached, mem⟩
  exact kept.2

end DBx1000.Vll
