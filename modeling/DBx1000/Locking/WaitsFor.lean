import DBx1000.Locking.Representation
import Mathlib.Logic.Relation

/-!
# The waits-for edges that DL_DETECT records

When `lock_get` lets a transaction wait it returns in `txnids` whom the transaction waits
for, and these edges are handed to the deadlock detector; nobody computes them again while
owners leave, waiters are granted or give up. Here the edges of many rows are kept beside
their locks.

## Main result

`waits_for_recorded`: at every moment each owner, and each waiter queued ahead, that a
waiter conflicts with is in the `txnids` of the waiter, so that a cycle of transactions
that wait for each other is a cycle of recorded edges.

## Proof strategy

`Covered` says the same of the queue that the lock implements. Since nobody joins the
owners while someone waits, an owner that comes after the edges were recorded was a waiter
ahead, and `Covered` is kept when the first waiter moves to the owners.
-/

namespace DBx1000.Locking

open LinkedList Transition RowLock

variable {ρ τ : Type*}

/-! ### Rows with the edges that their locks returned -/

structure DlState (ρ τ : Type*) where
  row : ρ → LockState τ
  /-- The `txnids` of the last `lock_get` of the transaction for the row. -/
  txnids : ρ → τ → List τ

section Machine

variable [DecidableEq ρ] [DecidableEq τ]

/-- A call of the lock of one row. -/
def DlState.step (cfg : Config) (ts : τ → Nat) (s : DlState ρ τ) (a : ρ × LockLabel τ) :
    Option (DlState ρ τ) :=
  ((s.row a.1).step cfg ts a.2).map fun row =>
    { row := Function.update s.row a.1 row
      txnids := match a.2 with
        | .lockGet txn type new =>
          let res := (s.row a.1).lock.lockGet cfg ts (s.row a.1).lockReady type.lockType txn new
          Function.update s.txnids a.1 (Function.update (s.txnids a.1) txn res.txnids)
        | .lockRelease _ => s.txnids }

def dlMachine (gThreadCnt : Nat) (ts : τ → Nat) : Machine (DlState ρ τ) (ρ × LockLabel τ) where
  init s := ∀ x, (lockMachine ⟨.dlDetect, gThreadCnt⟩ ts).init (s.row x)
  step s a := s.step ⟨.dlDetect, gThreadCnt⟩ ts a

end Machine

/-- The transaction `t` waits for the row, and `u` owns it, or is queued ahead of `t`, in a
mode that conflicts with the one that `t` asks for. -/
def RowLock.Blocks (l : RowLock τ) (t u : τ) : Prop :=
  ∃ front w back, walk l.next l.waiterCnt l.waitersHead = front ++ w :: back ∧
    (l.entry w).txn = t ∧ ∃ b ∈ walk l.next l.ownerCnt l.owners ++ front, (l.entry b).txn = u ∧
      conflictLock (l.entry b).type (l.entry w).type = true

/-- A transaction waits for another one at some row. -/
def DlState.WaitsFor (s : DlState ρ τ) (t u : τ) : Prop := ∃ x, (s.row x).lock.Blocks t u

/-- The edges that a waiting transaction adds to the graph. -/
def DlState.Recorded (s : DlState ρ τ) (t u : τ) : Prop :=
  ∃ x, t ∈ (s.row x).lock.waiterTxns ∧ u ∈ s.txnids x t

/-! ### What the recorded edges cover -/

namespace Queue

/-- The lists of the waiters contain whom they wait for. -/
structure Covered (q : Queue τ) (txnids : τ → List τ) : Prop where
  ahead : q.waiters.Pairwise fun v w =>
    conflictLock v.type w.type = true → v.txn ∈ txnids w.txn
  owners : ∀ w ∈ q.waiters, ∀ o ∈ q.owners,
    conflictLock o.type w.type = true → o.txn ∈ txnids w.txn
  nonempty : ∀ w ∈ q.waiters, txnids w.txn ≠ []

variable {txnids : τ → List τ} {q : Queue τ} {r : Request τ}

/-- The first waiter becomes an owner. It was ahead of all others. -/
theorem Covered.move {w : Request τ} {owners ws : List (Request τ)}
    (h : (Queue.mk owners (w :: ws)).Covered txnids) : (Queue.mk (w :: owners) ws).Covered txnids := by
  obtain ⟨first, rest⟩ := List.pairwise_cons.mp h.ahead
  refine ⟨rest, ?_, fun v hv => h.nonempty v (List.mem_cons_of_mem w hv)⟩
  intro v hv o ho conflict
  rcases List.mem_cons.mp ho with rfl | ho
  · exact first v hv conflict
  · exact h.owners v (List.mem_cons_of_mem w hv) o ho conflict

theorem Covered.grant (h : q.Covered txnids) : q.grant.Covered txnids := by
  obtain ⟨owners, waiters⟩ := q
  induction waiters generalizing owners with
  | nil => simpa [Queue.grant, granted] using h
  | cons w ws ih =>
    cases free : conflictLock (modeOf owners) w.type with
    | true =>
      rw [grant_of_blocked (by rintro p hp; cases hp; exact free)]
      exact h
    | false =>
      rw [grant_cons free]
      exact ih _ h.move

variable [DecidableEq τ]

theorem Covered.release {t : τ} (h : q.Covered txnids) : (q.release t).Covered txnids := by
  apply Covered.grant
  unfold Queue.remove
  split
  · exact ⟨h.ahead, fun w hw o ho => h.owners w hw o (List.mem_of_mem_eraseP ho), h.nonempty⟩
  · -- a waiter that gives up in the middle leaves the order of the others as it was
    exact ⟨h.ahead.sublist List.eraseP_sublist,
      fun w hw => h.owners w (List.mem_of_mem_eraseP hw),
      fun w hw => h.nonempty w (List.mem_of_mem_eraseP hw)⟩

/-- A request waits behind all others, with edges to all that it conflicts with. -/
theorem Covered.wait (h : q.Covered txnids) (new : r.txn ∉ q.requests.map (·.txn)) {ids : List τ}
    (edges : ∀ p ∈ q.requests, conflictLock p.type r.type = true → p.txn ∈ ids)
    (some : ids ≠ []) :
    Covered { q with waiters := q.waiters ++ [r] } (Function.update txnids r.txn ids) := by
  have kept (w : Request τ) (hw : w ∈ q.waiters) :
      Function.update txnids r.txn ids w.txn = txnids w.txn := by
    apply Function.update_of_ne
    intro same
    exact new (List.mem_map.mpr ⟨w, List.mem_append_right _ hw, same⟩)
  have mine : Function.update txnids r.txn ids r.txn = ids := Function.update_self ..
  refine ⟨?_, ?_, ?_⟩
  · rw [List.pairwise_append]
    refine ⟨?_, List.pairwise_singleton .., ?_⟩
    · apply h.ahead.imp_of_mem
      intro v w _ hw edge conflict
      rw [kept w hw]
      exact edge conflict
    · intro v hv w hw conflict
      rw [List.mem_singleton] at hw
      rw [hw] at conflict ⊢
      rw [mine]
      exact edges v (List.mem_append_right _ hv) conflict
  · intro w hw o ho conflict
    rcases List.mem_append.mp hw with hw | hw
    · rw [kept w hw]
      exact h.owners w hw o ho conflict
    · rw [List.mem_singleton] at hw
      rw [hw] at conflict ⊢
      rw [mine]
      exact edges o (List.mem_append_left _ ho) conflict
  · intro w hw
    rcases List.mem_append.mp hw with hw | hw
    · rw [kept w hw]
      exact h.nonempty w hw
    · rw [List.mem_singleton] at hw
      rw [hw, mine]
      exact some

end Queue

/-! ### The calls keep the edges -/

variable [DecidableEq τ] {gThreadCnt : Nat} {ts : τ → Nat} {q : Queue τ} {txnids : τ → List τ}
  {s s' : LockState τ} {txn : τ} {type : AccessType} {new : Addr}

/-- After `lock_get` the edges of the transaction are the ones returned. -/
theorem LockState.Serves.covered_get (h : s.Serves q) (covered : q.Covered txnids)
    (next : s.step ⟨.dlDetect, gThreadCnt⟩ ts (.lockGet txn type new) = some s') :
    (q.get .dlDetect ts ⟨txn, type.lockType⟩).2.Covered (Function.update txnids txn
      (s.lock.lockGet ⟨.dlDetect, gThreadCnt⟩ ts s.lockReady type.lockType txn new).txnids) := by
  obtain ⟨⟨idle, fresh⟩, -⟩ := (Option.ite_none_right_eq_some).mp next
  have outside : txn ∉ q.requests.map (·.txn) := h.notMem txn (by simpa using idle)
  obtain ⟨os, ws, shape⟩ := h.represents
  have checked := shape.check (b := s.lock.ownerCnt ≤ gThreadCnt ∧ s.lock.waiterCnt < gThreadCnt)
  have conflicts := checked.conflict_iff type.lockType txn ⟨.dlDetect, gThreadCnt⟩ ts
  unfold RowLock.lockGet Queue.get
  dsimp only
  split
  · next waits =>
    -- the edges are computed from the lists with the new entry at their end
    rw [if_pos (conflicts.mpr waits)]
    apply covered.wait outside
    · intro p hp conflict
      exact checked.mem_txnids s.lockReady h.sound fresh hp conflict
    · exact checked.txnids_ne_nil s.lockReady h.sound (lockType_ne type) fresh waits
  · next free =>
    -- without a conflict nobody waits
    have nobody : q.waiters = [] := by
      by_contra some
      exact free (.inr (.inr ⟨rfl, some⟩))
    constructor <;> simp [nobody]

variable [DecidableEq ρ] {d d' : DlState ρ τ}

/-- At every row the waiters have edges to all that they wait for. -/
def DlState.Covers (d : DlState ρ τ) : Prop :=
  ∀ x, ∃ q, (d.row x).Serves q ∧ q.Covered (d.txnids x)

theorem DlState.Covers.step {a : ρ × LockLabel τ} (h : d.Covers)
    (next : d.step ⟨.dlDetect, gThreadCnt⟩ ts a = some d') : d'.Covers := by
  obtain ⟨x, call⟩ := a
  obtain ⟨row, one, rfl⟩ := Option.map_eq_some_iff.mp next
  intro y
  obtain ⟨q, serves, covered⟩ := h y
  dsimp only at one ⊢
  by_cases same : y = x
  · subst same
    rw [Function.update_self]
    cases call with
    | lockGet txn type new =>
      refine ⟨(q.get .dlDetect ts ⟨txn, type.lockType⟩).2, serves.lockGet one, ?_⟩
      dsimp only
      rw [Function.update_self]
      exact serves.covered_get covered one
    | lockRelease txn => exact ⟨q.release txn, serves.lockRelease one, covered.release⟩
  · rw [Function.update_of_ne same]
    refine ⟨q, serves, ?_⟩
    cases call with
    | lockGet txn type new =>
      dsimp only
      rw [Function.update_of_ne same]
      exact covered
    | lockRelease txn => exact covered

theorem covers_of_reachable (reached : (dlMachine gThreadCnt ts).Reachable Free d) : d.Covers := by
  refine reached.invariant (I := DlState.Covers) ?_ ?_
  · intro s start x
    obtain ⟨⟨entry, e⟩, quiet⟩ := start x
    refine ⟨⟨[], []⟩, ?_, ⟨.nil, by simp, by simp⟩⟩
    unfold LockState.Serves
    rw [e]
    exact .init entry _ fun t => by simp [(quiet t).1]
  · intro s a s' h _ next
    exact h.step next

omit [DecidableEq τ] in
/-- The lists of a well-formed lock are the ones that its loops see. -/
theorem WellFormed.walk_eq {l : RowLock τ} {os ws : List Addr} (h : WellFormed l os ws) :
    walk l.next l.ownerCnt l.owners = os ∧ walk l.next l.waiterCnt l.waitersHead = ws :=
  ⟨h.owners.walk_eq (Nat.le_of_eq h.ownerCnt.symm),
    h.waiters.forward.walk_eq (Nat.le_of_eq h.waiterCnt.symm)⟩

omit [DecidableEq τ] in
/-- What is covered in the queue is covered in the lists. -/
theorem Shape.covered {l : RowLock τ} {os front back : List Addr} {w b : Addr}
    (h : Shape l os (front ++ w :: back) q) (covered : q.Covered txnids) :
    txnids (l.entry w).txn ≠ [] ∧ (b ∈ os ++ front →
      conflictLock (l.entry b).type (l.entry w).type = true →
        (l.entry b).txn ∈ txnids (l.entry w).txn) := by
  have waits : l.request w ∈ q.waiters := by
    rw [← h.waiters, List.map_append, List.map_cons]
    exact List.mem_append_right _ List.mem_cons_self
  refine ⟨covered.nonempty _ waits, fun hb => ?_⟩
  rcases List.mem_append.mp hb with owner | waiter
  · refine covered.owners _ waits (l.request b) ?_
    rw [← h.owners]
    exact List.mem_map_of_mem owner
  · have order := covered.ahead
    rw [← h.waiters, List.map_append, List.map_cons, List.pairwise_append] at order
    exact order.2.2 _ (List.mem_map_of_mem waiter) _ List.mem_cons_self

/-- **Recorded edges.** At every moment the `txnids` of a waiter are not empty and contain
each owner and each waiter ahead that it conflicts with; so a cycle of transactions that
wait for each other at some rows is a cycle of recorded edges. -/
theorem waits_for_recorded (gThreadCnt : Nat) (ts : τ → Nat) (d : DlState ρ τ)
    (reached : (dlMachine gThreadCnt ts).Reachable Free d) :
    (∀ x, ∃ os ws, WellFormed (d.row x).lock os ws ∧ ∀ front w back, ws = front ++ w :: back →
      let entry := (d.row x).lock.entry
      d.txnids x (entry w).txn ≠ [] ∧
        ∀ b ∈ os ++ front, conflictLock (entry b).type (entry w).type = true →
          (entry b).txn ∈ d.txnids x (entry w).txn) ∧
    ∀ t, Relation.TransGen d.WaitsFor t t → Relation.TransGen d.Recorded t t := by
  have covers := covers_of_reachable reached
  constructor
  · intro x
    obtain ⟨q, serves, covered⟩ := covers x
    obtain ⟨os, ws, shape⟩ := serves.represents
    refine ⟨os, ws, shape.wellFormed serves.sound, ?_⟩
    rintro front w back rfl
    refine ⟨(shape.covered covered (b := w)).1, fun b hb conflict => ?_⟩
    exact (shape.covered covered).2 hb conflict
  · intro t cycle
    refine Relation.TransGen.mono ?_ t t cycle
    rintro u v ⟨x, front, w, back, split, rfl, b, hb, rfl, conflict⟩
    obtain ⟨q, serves, covered⟩ := covers x
    obtain ⟨os, ws, shape⟩ := serves.represents
    obtain ⟨owners, waiters⟩ := (shape.wellFormed serves.sound).walk_eq
    refine ⟨x, ?_, ?_⟩
    · unfold RowLock.waiterTxns
      rw [split]
      exact List.mem_map_of_mem (List.mem_append_right _ List.mem_cons_self)
    · rw [owners] at hb
      rw [waiters] at split
      subst split
      exact (shape.covered covered).2 hb conflict

/-- Two transactions that own a row each and wait for the other one's. -/
def crossing : List (Bool × LockLabel Nat) :=
  [(false, .lockGet 0 .WR 0), (true, .lockGet 1 .WR 0), (false, .lockGet 1 .WR 1),
    (true, .lockGet 0 .WR 1)]

/-- The waiters and the owners of a row, and the first two entries if they are exclusive. -/
def RowLock.view (l : RowLock Nat) : List (List Nat) :=
  [walk l.next l.waiterCnt l.waitersHead, walk l.next l.ownerCnt l.owners,
    ([1, 0].filter fun a => (l.entry a).type = .lockEx).map fun a => (l.entry a).txn]

theorem RowLock.blocks_of_view {l : RowLock Nat} {t u : Nat}
    (view : l.view = [[1], [0], [t, u]]) : l.Blocks t u := by
  simp only [RowLock.view, List.cons.injEq, and_true] at view
  obtain ⟨waiters, owners, txns⟩ := view
  have both : (l.entry 1).type = .lockEx ∧ (l.entry 0).type = .lockEx := by
    by_cases one : (l.entry 1).type = .lockEx <;> by_cases zero : (l.entry 0).type = .lockEx <;>
      simp_all
  simp only [List.filter_cons, both.1, both.2, decide_true, if_true, List.filter_nil,
    List.map_cons, List.map_nil, List.cons.injEq, and_true] at txns
  refine ⟨[], 1, [], waiters, txns.1, 0, ?_, txns.2, ?_⟩
  · rw [owners]
    exact List.mem_cons_self
  · rw [both.1, both.2]
    rfl

/-- Their cycle is recorded. -/
theorem waits_for_recorded_crossing : ∃ d : DlState Bool Nat,
    (dlMachine 2 id).Reachable Free d ∧ Relation.TransGen d.Recorded 0 0 := by
  let s₀ : LockState Nat :=
    { lock := RowLock.init fun _ => ⟨.lockNone, 0, none, none⟩
      lockReady := fun _ => false
      answer := fun _ => none
      hasWaited := fun _ => false }
  obtain ⟨d, path, e⟩ := Machine.exists_along (dlMachine 2 id) Free
    (⟨fun _ => s₀, fun _ _ => []⟩ : DlState Bool Nat) crossing
    (fun d => (d.row false).lock.view ++ (d.row true).lock.view)
    [[1], [0], [1, 0], [1], [0], [0, 1]] (by decide)
  obtain ⟨first, second⟩ : (d.row false).lock.view = [[1], [0], [1, 0]] ∧
      (d.row true).lock.view = [[1], [0], [0, 1]] := List.append_inj e rfl
  have reached : (dlMachine 2 id).Reachable Free d :=
    ⟨_, _, fun _ => ⟨⟨_, rfl⟩, fun t => ⟨rfl, rfl⟩⟩, path⟩
  refine ⟨d, reached, (waits_for_recorded 2 id d reached).2 0 ?_⟩
  exact .tail (.single ⟨true, RowLock.blocks_of_view second⟩) ⟨false, RowLock.blocks_of_view first⟩

end DBx1000.Locking
