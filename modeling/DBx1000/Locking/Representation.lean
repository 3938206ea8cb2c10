import DBx1000.Library.Transition
import DBx1000.Locking.Requests
import Mathlib.Data.Fintype.Card

/-!
# Sequences of calls of one lock

Transactions call `lock_get` and `lock_release` of one row in any order; a transaction
asks once before it releases, and it may release while it waits. After every call the
lock is well formed and no waiter is asleep that could be granted; with no more
transactions than threads, no assertion of the lock fails.

## Main result

`lock_wellFormed`: in every state that calls of distinct transactions lead to, the lists and the
counters are well formed, the first waiter conflicts with the mode, and of the transactions that
have waited exactly the owners see `lock_ready`.

## Proof strategy

The lock serves a queue in every state, by `Locking.Refinement`, and the queue is sound. What is
left are the flags, which a call sets for the transactions that it lets in.
-/

namespace DBx1000.Locking

open LinkedList Transition RowLock

variable {τ : Type*}

structure LockState (τ : Type*) where
  lock : RowLock τ
  lockReady : τ → Bool
  /-- What `lock_get` has returned for the request that the transaction has not released. -/
  answer : τ → Option RC
  /-- `lock_get` has returned WAIT to the transaction at some time. -/
  hasWaited : τ → Bool

inductive LockLabel (τ : Type*)
  | lockGet (txn : τ) (type : AccessType) (new : Addr)
  | lockRelease (txn : τ)

variable [DecidableEq τ]

/-- One call; `new` is an address that the allocator has not handed out. -/
def LockState.step (cfg : Config) (ts : τ → Nat) (s : LockState τ) : LockLabel τ → Option (LockState τ)
  | .lockGet txn type new =>
    if s.answer txn = none ∧ s.lock.inUse new = false then
      let res := s.lock.lockGet cfg ts s.lockReady type.lockType txn new
      some
        { lock := res.lock
          lockReady := res.lockReady
          answer := Function.update s.answer txn (if res.rc = .Abort then none else some res.rc)
          hasWaited := Function.update s.hasWaited txn (s.hasWaited txn || res.rc = .WAIT) }
    else none
  | .lockRelease txn =>
    if s.answer txn ≠ none then
      let (lock, lockReady) := s.lock.lockRelease s.lockReady txn
      some { s with lock, lockReady, answer := Function.update s.answer txn none }
    else none

def lockMachine (cfg : Config) (ts : τ → Nat) : Machine (LockState τ) (LockLabel τ) where
  init s := (∃ entry, s.lock = RowLock.init entry) ∧ ∀ t, s.answer t = none ∧ s.hasWaited t = false
  step s a := s.step cfg ts a

/-- The representation of the lock, with the addresses of the owners and of the waiters. -/
structure WellFormed (l : RowLock τ) (os ws : List Addr) : Prop where
  owners : Chain l.next l.owners os
  waiters : Doubly l.next l.prev l.waitersHead l.waitersTail ws
  mode : (os = [] ∧ l.lockType = .lockNone) ∨
    (os ≠ [] ∧ l.lockType = .lockSh ∧ ∀ en ∈ os, (l.entry en).type = .lockSh) ∨
    ∃ en, os = [en] ∧ (l.entry en).type = .lockEx ∧ l.lockType = .lockEx
  ownerCnt : l.ownerCnt = os.length
  waiterCnt : l.waiterCnt = ws.length
  distinct : ((os ++ ws).map fun en => (l.entry en).txn).Nodup
  blocked : ∀ en ∈ ws.head?, conflictLock l.lockType (l.entry en).type = true

omit [DecidableEq τ] in
theorem Shape.wellFormed {l : RowLock τ} {os ws : List Addr} {q : Queue τ} (h : Shape l os ws q)
    (sound : q.Sound) : WellFormed l os ws where
  owners := h.lists.owners
  waiters := h.lists.waiters
  mode := by
    rw [h.lockType]
    rcases sound.owners_cases with ⟨none, mode⟩ | ⟨some, mode, types⟩ | ⟨o, single, type, mode⟩
    · left
      rw [← h.owners, List.map_eq_nil_iff] at none
      exact ⟨none, mode⟩
    · right; left
      rw [← h.owners, ne_eq, List.map_eq_nil_iff] at some
      refine ⟨some, mode, fun en mem => types (l.request en) ?_⟩
      rw [← h.owners]
      exact List.mem_map_of_mem mem
    · right; right
      rw [← h.owners, List.map_eq_singleton_iff] at single
      obtain ⟨en, cells, rfl⟩ := single
      exact ⟨en, cells, type, mode⟩
  ownerCnt := h.ownerCnt
  waiterCnt := h.waiterCnt
  distinct := by
    have := sound.distinct
    rwa [Queue.requests, ← h.owners, ← h.waiters, ← List.map_append, List.map_map] at this
  blocked en mem := by
    rw [h.lockType]
    refine sound.blocked (l.request en) ?_
    rw [← h.waiters, List.head?_map, Option.mem_def.mp mem]
    rfl

/-! ### The invariant -/

/-- The lock serves the open requests; a transaction watches for a request that had to wait. -/
def LockState.Serves (s : LockState τ) (q : Queue τ) : Prop :=
  Locking.Serves s.lock s.lockReady (s.answer · ≠ none) (s.answer · = some .WAIT) q

variable {cfg : Config} {ts : τ → Nat} {s s' : LockState τ} {q : Queue τ} {txn : τ}

theorem LockState.Serves.lockGet {type : AccessType} {new : Addr} (h : s.Serves q)
    (next : s.step cfg ts (.lockGet txn type new) = some s') :
    s'.Serves (q.get cfg.ccAlg ts ⟨txn, type.lockType⟩).2 := by
  obtain ⟨⟨idle, fresh⟩, e⟩ := (Option.ite_none_right_eq_some).mp next
  cases e
  refine h.get cfg ts (lockType_ne type) fresh (by simpa using idle) (fun t => ?_) (fun t ne => ?_) ?_
  · dsimp only
    rw [Function.update_apply]
    split
    · next e =>
      subst e
      split
      · next refused => simp [idle, refused]
      · next refused => simp [refused]
    · next ne => simp [Ne.symm ne]
  · dsimp only
    rw [Function.update_of_ne ne]
  · dsimp only
    rw [Function.update_self]
    split
    · next refused => simp [refused]
    · simp

theorem LockState.Serves.lockRelease (h : s.Serves q)
    (next : s.step cfg ts (.lockRelease txn) = some s') : s'.Serves (q.release txn) := by
  obtain ⟨asked, e⟩ := (Option.ite_none_right_eq_some).mp next
  cases e
  refine h.release asked (fun t => ?_) fun t ne => ?_
  · dsimp only
    rw [Function.update_apply]
    split
    · next e => simp [e]
    · next ne => simp [ne]
  · dsimp only
    rw [Function.update_of_ne ne]

theorem serves_of_reachable (reached : (lockMachine cfg ts).Reachable Free s) :
    ∃ q, s.Serves q := by
  refine reached.invariant (I := fun s => ∃ q, s.Serves q) ?_ ?_
  · rintro s ⟨⟨entry, e⟩, quiet⟩
    refine ⟨⟨[], []⟩, ?_⟩
    unfold LockState.Serves
    rw [e]
    exact .init entry s.lockReady fun t => by simp [(quiet t).1]
  · rintro s a s' ⟨q, h⟩ - next
    cases a with
    | lockGet txn type new => exact ⟨_, h.lockGet next⟩
    | lockRelease txn =>
      exact ⟨_, h.lockRelease (show s.step cfg ts (.lockRelease txn) = some s' from next)⟩

/-- **Representation and wake-ups.** In every state that calls by distinct transactions
lead to, the lock is well formed, its first waiter conflicts with its mode, and of the
transactions that have waited for their present request exactly the owners see `lock_ready`. -/
theorem lock_wellFormed (cfg : Config) (ts : τ → Nat) (s : LockState τ)
    (reached : (lockMachine cfg ts).Reachable Free s) :
    ∃ os ws, WellFormed s.lock os ws ∧ ∀ t, s.answer t = some .WAIT →
      (s.lockReady t = true ↔ ∃ en ∈ os, (s.lock.entry en).txn = t) := by
  obtain ⟨q, h⟩ := serves_of_reachable reached
  obtain ⟨os, ws, shape⟩ := h.represents
  refine ⟨os, ws, shape.wellFormed h.sound, fun t waited => ?_⟩
  have owner : (∃ en ∈ os, (s.lock.entry en).txn = t) ↔ ∃ o ∈ q.owners, o.txn = t := by
    rw [← shape.owners]
    simp
  rw [owner]
  constructor
  · intro up
    obtain ⟨r, hr, rfl⟩ := (h.requests t).mp (by rw [waited]; exact Option.some_ne_none _)
    rcases List.mem_append.mp hr with hr | hr
    · exact ⟨r, hr, rfl⟩
    · rw [(h.asleep r hr).2] at up
      cases up
  · rintro ⟨o, ho, rfl⟩
    exact h.awake o ho waited

theorem lock_wellFormed_readers :
    ∃ s : LockState Nat, s.lock.ownerCnt = 2 ∧ s.lock.waiterCnt = 1 ∧
      ∃ os ws, WellFormed s.lock os ws ∧ ∀ t, s.answer t = some .WAIT →
        (s.lockReady t = true ↔ ∃ en ∈ os, (s.lock.entry en).txn = t) := by
  let s₀ : LockState Nat :=
    { lock := RowLock.init fun _ => ⟨.lockNone, 0, none, none⟩
      lockReady := fun _ => false
      answer := fun _ => none
      hasWaited := fun _ => false }
  obtain ⟨s, path, e⟩ := Machine.exists_along (lockMachine ⟨.waitDie, 3⟩ fun t => 9 - t) Free s₀
    [.lockGet 0 .WR 0, .lockGet 1 .RD 1, .lockGet 2 .SCAN 2, .lockGet 3 .WR 3, .lockRelease 0]
    (fun s => (s.lock.ownerCnt, s.lock.waiterCnt)) (2, 1) (by decide)
  simp only [Prod.mk.injEq] at e
  exact ⟨s, e.1, e.2, lock_wellFormed ⟨.waitDie, 3⟩ (fun t => 9 - t) s
    ⟨s₀, _, ⟨⟨_, rfl⟩, fun t => ⟨rfl, rfl⟩⟩, path⟩⟩

/-- After its release, a transaction that has waited still sees `lock_ready`, though it owns
nothing: nobody takes the flag back before the transaction waits again. -/
theorem lock_ready_after_release :
    ∃ s : LockState Nat, (lockMachine ⟨.dlDetect, 2⟩ id).Reachable Free s ∧ s.hasWaited 1 = true ∧
      s.lock.owners = none ∧ s.lock.waitersHead = none ∧ s.lockReady 1 = true := by
  let s₀ : LockState Nat :=
    { lock := RowLock.init fun _ => ⟨.lockNone, 0, none, none⟩
      lockReady := fun _ => false
      answer := fun _ => none
      hasWaited := fun _ => false }
  obtain ⟨s, path, e⟩ := Machine.exists_along (lockMachine ⟨.dlDetect, 2⟩ id) Free s₀
    [.lockGet 0 .WR 0, .lockGet 1 .WR 1, .lockRelease 0, .lockRelease 1]
    (fun s => (s.hasWaited 1, s.lock.owners, s.lock.waitersHead, s.lockReady 1))
    (true, none, none, true) (by decide)
  simp only [Prod.mk.injEq] at e
  exact ⟨s, ⟨s₀, _, ⟨⟨_, rfl⟩, fun t => ⟨rfl, rfl⟩⟩, path⟩, e⟩

omit [DecidableEq τ] in
theorem Represents.counts {l : RowLock τ} (h : Represents l q) :
    l.ownerCnt = q.owners.length ∧ l.waiterCnt = q.waiters.length := by
  obtain ⟨os, ws, shape⟩ := h
  rw [shape.ownerCnt, shape.waiterCnt, ← shape.owners, ← shape.waiters, List.length_map,
    List.length_map]
  exact ⟨rfl, rfl⟩

omit [DecidableEq τ] in
/-- The transactions with a request and one without a request are different ones. -/
theorem LockState.Serves.length_lt [Fintype τ] (h : s.Serves q) (idle : s.answer txn = none) :
    q.requests.length < Fintype.card τ := by
  have new : txn ∉ q.requests.map (·.txn) := h.notMem txn (by simpa using idle)
  have := (List.nodup_cons.mpr ⟨new, h.sound.distinct⟩).length_le_card
  rwa [List.length_cons, List.length_map] at this

/-- With no more transactions than threads, no assertion of the lock fails. -/
theorem lock_asserts [Fintype τ] (cfg : Config) (ts : τ → Nat) (enough : Fintype.card τ ≤ cfg.gThreadCnt)
    (s : LockState τ) (reached : (lockMachine cfg ts).Reachable Free s) : s.lock.asserts = true := by
  have inv : (∃ q, s.Serves q) ∧ s.lock.asserts = true := by
    refine reached.invariant (I := fun s => (∃ q, s.Serves q) ∧ s.lock.asserts = true) ?_ ?_
    · intro s start
      refine ⟨serves_of_reachable (Machine.Reachable.init start), ?_⟩
      obtain ⟨⟨entry, e⟩, -⟩ := start
      rw [e]
      rfl
    · rintro s a s' ⟨⟨q, h⟩, holds⟩ - next
      cases a with
      | lockGet txn type new =>
        refine ⟨⟨_, h.lockGet next⟩, ?_⟩
        obtain ⟨⟨idle, fresh⟩, e⟩ := (Option.ite_none_right_eq_some).mp next
        cases e
        have less := h.length_lt idle
        rw [Queue.requests, List.length_append] at less
        obtain ⟨owners, waiters⟩ := h.represents.counts
        refine (lockGet_spec txn cfg ts s.lockReady h.represents h.sound (lockType_ne type) fresh).asserts
          holds ⟨?_, ?_⟩ <;> omega
      | lockRelease txn =>
        refine ⟨⟨_, h.lockRelease (show s.step cfg ts (.lockRelease txn) = some s' from next)⟩, ?_⟩
        obtain ⟨asked, e⟩ := (Option.ite_none_right_eq_some).mp next
        cases e
        have mine := (h.requests txn).mp asked
        exact (lockRelease_spec h.represents h.sound.toConsistent mine fun w hw => (h.asleep w hw).2).2.1.trans holds
  exact inv.2

end DBx1000.Locking
