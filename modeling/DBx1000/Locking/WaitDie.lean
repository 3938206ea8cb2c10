import DBx1000.Library.Transition
import DBx1000.Locking.Requests
import Mathlib.Logic.Relation

/-!
# WAIT_DIE does not deadlock

Transactions with distinct timestamps call `lock_get` and `lock_release` of any number of
rows; a transaction that has to wait goes on only when its flag is up. On every row the
waiters are older than the owners and each is older than those before it, so whoever waits
waits for someone younger, and there is no cycle of transactions that wait for each other.

## Main result

`wait_die_acyclic`: waiters are older than owners, the waiters of a row are in strictly decreasing
order of timestamps, and the graph of those who wait for each other has no cycle.

## Proof strategy

Each lock implements a queue, and `Aged` is kept by the operations of the queue. Every edge goes to
a greater timestamp, so a cycle would come back to a greater one than it started from.
-/

namespace DBx1000.Locking

open LinkedList Transition RowLock

variable {ρ τ : Type*}

structure TableState (ρ τ : Type*) where
  lock : ρ → RowLock τ
  lockReady : τ → Bool
  /-- The transaction has asked for the row and not released it. -/
  asked : τ → ρ → Bool
  /-- The row for which the transaction waits in `row_t::get_row`. -/
  waiting : τ → Option ρ

inductive TableLabel (ρ τ : Type*)
  | lockGet (txn : τ) (row : ρ) (type : AccessType) (new : Addr)
  /-- The transaction sees `lock_ready` and leaves the loop in which it waits. -/
  | wake (txn : τ)
  | lockRelease (txn : τ) (row : ρ)

variable [DecidableEq ρ] [DecidableEq τ]

def TableState.step (cfg : Config) (ts : τ → Nat) (s : TableState ρ τ) :
    TableLabel ρ τ → Option (TableState ρ τ)
  | .lockGet txn row type new =>
    if s.waiting txn = none ∧ s.asked txn row = false ∧ (s.lock row).inUse new = false then
      let res := (s.lock row).lockGet cfg ts s.lockReady type.lockType txn new
      some
        { lock := Function.update s.lock row res.lock
          lockReady := res.lockReady
          asked := Function.update s.asked txn (Function.update (s.asked txn) row (res.rc ≠ .Abort))
          waiting := Function.update s.waiting txn (if res.rc = .WAIT then some row else none) }
    else none
  | .wake txn =>
    if s.waiting txn ≠ none ∧ s.lockReady txn then
      some { s with waiting := Function.update s.waiting txn none }
    else none
  | .lockRelease txn row =>
    if s.asked txn row then
      let (lock, lockReady) := (s.lock row).lockRelease s.lockReady txn
      some
        { lock := Function.update s.lock row lock
          lockReady
          asked := Function.update s.asked txn (Function.update (s.asked txn) row false)
          waiting := Function.update s.waiting txn
            (if s.waiting txn = some row then none else s.waiting txn) }
    else none

def tableMachine (cfg : Config) (ts : τ → Nat) : Machine (TableState ρ τ) (TableLabel ρ τ) where
  init s := (∀ row, ∃ entry, s.lock row = RowLock.init entry) ∧
    (∀ t row, s.asked t row = false) ∧ ∀ t, s.waiting t = none
  step s a := s.step cfg ts a

/-! ### Every row is served -/

/-- The locks serve the requests, with one queue for each row. -/
def TableState.Serves (s : TableState ρ τ) (q : ρ → Queue τ) : Prop :=
  ∀ row, Locking.Serves (s.lock row) s.lockReady (s.asked · row = true) (s.waiting · = some row)
    (q row)

variable {cfg : Config} {ts : τ → Nat} {s s' : TableState ρ τ} {q : ρ → Queue τ} {txn : τ} {row : ρ}

theorem TableState.Serves.lockGet {type : AccessType} {new : Addr} (h : s.Serves q)
    (next : s.step cfg ts (.lockGet txn row type new) = some s') :
    s'.Serves (Function.update q row ((q row).get cfg.ccAlg ts ⟨txn, type.lockType⟩).2) := by
  obtain ⟨⟨quiet, idle, fresh⟩, e⟩ := (Option.ite_none_right_eq_some).mp next
  cases e
  intro r
  by_cases here : r = row
  · subst here
    simp only [Function.update_self]
    refine (h r).get cfg ts (lockType_ne type) fresh (by simp [idle]) (fun t => ?_) (fun t ne => ?_) ?_
    · rw [Function.update_apply]
      split
      · next e =>
        subst e
        simp [idle]
      · next ne => simp [Ne.symm ne]
    · rw [Function.update_of_ne ne]
    · rw [Function.update_self]
      simp
  · -- At another row, only the flag of the transaction may have changed, which did not wait.
    simp only [Function.update_of_ne here]
    refine (h r).elsewhere (fun t => ?_) (fun t watches => ?_) fun w hw => ?_
    · rw [Function.update_apply]
      split
      · next e => rw [e, Function.update_of_ne here]
      · rfl
    · by_cases e : t = txn
      · subst e
        rw [Function.update_self] at watches
        split at watches
        · cases watches
          exact absurd rfl here
        · cases watches
      · rw [Function.update_of_ne e] at watches
        exact ⟨watches, (h row).get_flag (lockType_ne type) fresh e⟩
    · have watched := ((h r).asleep w hw).1
      have ne : w.txn ≠ txn := by
        rintro e
        rw [e, quiet] at watched
        cases watched
      rw [Function.update_of_ne ne]
      exact watched

theorem TableState.Serves.wake (h : s.Serves q) (next : s.step cfg ts (.wake txn) = some s') :
    s'.Serves q := by
  obtain ⟨⟨-, up⟩, e⟩ := (Option.ite_none_right_eq_some).mp next
  cases e
  intro r
  refine (h r).elsewhere (fun t => Iff.rfl) (fun t watches => ?_) fun w hw => ?_
  · dsimp only at watches
    rw [Function.update_apply] at watches
    split at watches
    · cases watches
    · exact ⟨watches, rfl⟩
  · have ne : w.txn ≠ txn := by
      rintro e
      have down := ((h r).asleep w hw).2
      rw [e, up] at down
      cases down
    dsimp only
    rw [Function.update_of_ne ne]
    exact ((h r).asleep w hw).1

theorem TableState.Serves.lockRelease (h : s.Serves q)
    (next : s.step cfg ts (.lockRelease txn row) = some s') :
    s'.Serves (Function.update q row ((q row).release txn)) := by
  obtain ⟨mine, e⟩ := (Option.ite_none_right_eq_some).mp next
  cases e
  intro r
  by_cases here : r = row
  · subst here
    simp only [Function.update_self]
    refine (h r).release mine (fun t => ?_) fun t ne => ?_
    · rw [Function.update_apply]
      split
      · next e => simp [e]
      · next ne => simp [ne]
    · rw [Function.update_of_ne ne]
  · -- The flags that the release raises belong to transactions that wait for `row`.
    simp only [Function.update_of_ne here]
    have kept (t : τ) (waits : s.waiting t = some r) :
        Function.update s.waiting txn
          (if s.waiting txn = some row then none else s.waiting txn) t = some r := by
      rw [Function.update_apply]
      split
      · next e =>
        subst e
        rw [if_neg, waits]
        rw [waits]
        exact fun e => here (Option.some.inj e)
      · exact waits
    refine (h r).elsewhere (fun t => ?_) (fun t watches => ?_) fun w hw => ?_
    · rw [Function.update_apply]
      split
      · next e => rw [e, Function.update_of_ne here]
      · rfl
    · have before : s.waiting t = some r := by
        rw [Function.update_apply] at watches
        split at watches
        · next e =>
          subst e
          split at watches
          · cases watches
          · exact watches
        · exact watches
      refine ⟨before, (h row).release_flag mine ?_⟩
      rw [before]
      exact fun e => here (Option.some.inj e)
    · exact kept w.txn ((h r).asleep w hw).1

/-! ### Timestamps -/

/-- A waiter of a row waits for its owners and for the waiters queued before it. -/
def WaitsFor (s : TableState ρ τ) (t u : τ) : Prop :=
  ∃ row, ∃ front back, (s.lock row).waiterTxns = front ++ t :: back ∧
    (u ∈ (s.lock row).ownerTxns ∨ u ∈ front)

/-- The queues of a reachable state under WAIT_DIE. -/
theorem aged_of_reachable {n : Nat} (distinct : Function.Injective ts)
    (reached : (tableMachine ⟨.waitDie, n⟩ ts).Reachable Free s) :
    ∃ q, s.Serves q ∧ ∀ row, (q row).Aged ts := by
  refine reached.invariant (I := fun s => ∃ q, s.Serves q ∧ ∀ row, (q row).Aged ts) ?_ ?_
  · rintro s ⟨locks, quiet, -⟩
    refine ⟨fun _ => ⟨[], []⟩, fun row => ?_, fun row => ⟨List.Pairwise.nil, by simp⟩⟩
    obtain ⟨entry, e⟩ := locks row
    rw [e]
    exact .init entry s.lockReady fun t => by simp [quiet t row]
  · rintro s a s' ⟨q, h, aged⟩ - next
    change s.step ⟨.waitDie, n⟩ ts a = some s' at next
    cases a with
    | lockGet txn row type new =>
      refine ⟨_, h.lockGet next, fun r => ?_⟩
      obtain ⟨⟨-, idle, -⟩, -⟩ := (Option.ite_none_right_eq_some).mp next
      rw [Function.update_apply]
      split
      · refine (aged row).get fun p hp e => ?_
        refine (h row).notMem txn (by simp [idle]) ?_
        exact List.mem_map.mpr ⟨p, hp, distinct e⟩
      · exact aged r
    | wake txn => exact ⟨q, h.wake next, aged⟩
    | lockRelease txn row =>
      refine ⟨_, h.lockRelease next, fun r => ?_⟩
      rw [Function.update_apply]
      split
      · exact (aged row).release
      · exact aged r

/-- **No deadlock under WAIT_DIE.** Waiters are older than owners, the waiters of a row are in
strictly decreasing order of timestamps, every edge of the waits-for graph goes from an older
transaction to a younger one, and the graph over all rows has no cycle. -/
theorem wait_die_acyclic (n : Nat) (ts : τ → Nat) (distinct : Function.Injective ts)
    (s : TableState ρ τ) (reached : (tableMachine ⟨.waitDie, n⟩ ts).Reachable Free s) :
    (∀ row, ∀ w ∈ (s.lock row).waiterTxns, ∀ o ∈ (s.lock row).ownerTxns, ts w < ts o) ∧
      (∀ row, (s.lock row).waiterTxns.Pairwise fun v w => ts w < ts v) ∧
      (∀ t u, WaitsFor s t u → ts t < ts u) ∧ ∀ t, ¬ Relation.TransGen (WaitsFor s) t t := by
  obtain ⟨q, h, aged⟩ := aged_of_reachable distinct reached
  have older : ∀ row, ∀ w ∈ (s.lock row).waiterTxns, ∀ o ∈ (s.lock row).ownerTxns, ts w < ts o := by
    intro row w hw o ho
    obtain ⟨owners, waiters⟩ := (h row).represents.txns
    rw [waiters] at hw
    rw [owners] at ho
    obtain ⟨w, waits, rfl⟩ := List.mem_map.mp hw
    obtain ⟨o, owns, rfl⟩ := List.mem_map.mp ho
    exact (aged row).older w waits o owns
  have sorted : ∀ row, (s.lock row).waiterTxns.Pairwise fun v w => ts w < ts v := by
    intro row
    rw [(h row).represents.txns.2, List.pairwise_map]
    exact (aged row).sorted
  have edge : ∀ t u, WaitsFor s t u → ts t < ts u := by
    rintro t u ⟨row, front, back, split, owner | before⟩
    · exact older row t (by simp [split]) u owner
    · have := sorted row
      rw [split, List.pairwise_append] at this
      exact this.2.2 u before t List.mem_cons_self
  refine ⟨older, sorted, edge, fun t cycle => ?_⟩
  -- Along a path the timestamps increase.
  have increases : ∀ u, Relation.TransGen (WaitsFor s) t u → ts t < ts u := by
    intro u path
    induction path with
    | single step => exact edge _ _ step
    | tail _ step ih => exact Nat.lt_trans ih (edge _ _ step)
  exact Nat.lt_irrefl _ (increases t cycle)

theorem wait_die_acyclic_chain :
    ∃ s : TableState Nat Nat, (s.lock 0).waiterTxns = [1] ∧ (s.lock 1).waiterTxns = [0] ∧
      ∀ t, ¬ Relation.TransGen (WaitsFor s) t t := by
  let s₀ : TableState Nat Nat :=
    { lock := fun _ => RowLock.init fun _ => ⟨.lockNone, 0, none, none⟩
      lockReady := fun _ => false
      asked := fun _ _ => false
      waiting := fun _ => none }
  obtain ⟨s, path, e⟩ := Machine.exists_along (tableMachine ⟨.waitDie, 3⟩ id) Free s₀
    [.lockGet 2 0 .WR 0, .lockGet 1 1 .RD 0, .lockGet 1 0 .WR 1, .lockGet 0 1 .WR 1]
    (fun s => ((s.lock 0).waiterTxns, (s.lock 1).waiterTxns)) ([1], [0]) (by decide)
  simp only [Prod.mk.injEq] at e
  have reached : (tableMachine ⟨.waitDie, 3⟩ id).Reachable Free s :=
    ⟨s₀, _, ⟨fun _ => ⟨_, rfl⟩, fun _ _ => rfl, fun _ => rfl⟩, path⟩
  exact ⟨s, e.1, e.2, (wait_die_acyclic 3 id Function.injective_id s reached).2.2.2⟩

end DBx1000.Locking
