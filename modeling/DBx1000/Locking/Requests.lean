import DBx1000.Locking.Refinement

/-!
# The lock as its transactions see it

`Serves` relates a lock to what the transactions know: who has asked for the row and not
released it, and who watches its flag `lock_ready` because of this row. A waiter watches,
with its flag down; the flag of an owner that watches is up. The three rules say what a
call of `lock_get`, a call of `lock_release`, and events at other rows leave of this.
-/

namespace DBx1000.Locking

open LinkedList RowLock

variable {τ : Type*}

/-- The transactions that own the row, and those that wait for it, as the lists have them. -/
def RowLock.ownerTxns (l : RowLock τ) : List τ :=
  (walk l.next l.ownerCnt l.owners).map fun en => (l.entry en).txn

def RowLock.waiterTxns (l : RowLock τ) : List τ :=
  (walk l.next l.waiterCnt l.waitersHead).map fun en => (l.entry en).txn

theorem Represents.txns {l : RowLock τ} {q : Queue τ} (h : Represents l q) :
    l.ownerTxns = q.owners.map (·.txn) ∧ l.waiterTxns = q.waiters.map (·.txn) := by
  obtain ⟨os, ws, shape⟩ := h
  unfold RowLock.ownerTxns RowLock.waiterTxns
  rw [shape.lists.owners.walk_eq (Nat.le_of_eq shape.ownerCnt.symm),
    shape.lists.waiters.forward.walk_eq (Nat.le_of_eq shape.waiterCnt.symm), ← shape.owners,
    ← shape.waiters, List.map_map, List.map_map]
  exact ⟨rfl, rfl⟩

structure Serves (l : RowLock τ) (lockReady : τ → Bool) (asked watching : τ → Prop) (q : Queue τ) :
    Prop where
  represents : Represents l q
  sound : q.Sound
  requests : ∀ t, asked t ↔ ∃ r ∈ q.requests, r.txn = t
  asleep : ∀ w ∈ q.waiters, watching w.txn ∧ lockReady w.txn = false
  awake : ∀ o ∈ q.owners, watching o.txn → lockReady o.txn = true

namespace Serves

variable {l : RowLock τ} {lockReady lockReady' : τ → Bool} {asked asked' watching watching' : τ → Prop}
  {q : Queue τ}

/-- A new lock, of which nobody has asked. -/
theorem init (entry : Addr → LockEntry τ) (lockReady : τ → Bool) (none : ∀ t, ¬ asked t) :
    Serves (RowLock.init entry) lockReady asked watching ⟨[], []⟩ where
  represents :=
    ⟨[], [], ⟨rfl, ⟨rfl, rfl⟩, List.nodup_nil⟩, rfl, rfl, by simp [RowLock.init], rfl, rfl, rfl⟩
  sound := ⟨⟨List.nodup_nil, by simp [Queue.requests], List.Pairwise.nil⟩, by simp [Queue.Blocked]⟩
  requests t := by simp [none t, Queue.requests]
  asleep := by simp
  awake := by simp

/-- Elsewhere, flags change for transactions that do not watch this row. -/
theorem elsewhere (h : Serves l lockReady asked watching q) (same : ∀ t, asked' t ↔ asked t)
    (watch : ∀ t, watching' t → watching t ∧ lockReady' t = lockReady t)
    (still : ∀ w ∈ q.waiters, watching' w.txn) : Serves l lockReady' asked' watching' q where
  represents := h.represents
  sound := h.sound
  requests t := (same t).trans (h.requests t)
  asleep w hw := ⟨still w hw, (watch _ (still w hw)).2.trans (h.asleep w hw).2⟩
  awake o ho watches := by
    obtain ⟨before, e⟩ := watch _ watches
    exact e.trans (h.awake o ho before)

theorem notMem (h : Serves l lockReady asked watching q) (txn : τ) (idle : ¬ asked txn) :
    txn ∉ q.requests.map (·.txn) := by
  intro mem
  obtain ⟨r, hr, e⟩ := List.mem_map.mp mem
  exact idle ((h.requests txn).mpr ⟨r, hr, e⟩)

variable [DecidableEq τ] {txn : τ} {type : LockType} {new : Addr} {cfg : Config} {ts : τ → Nat}

variable (cfg ts) in
/-- After `lock_get` the transaction has asked, unless it was refused, and it watches if it
has to wait. -/
theorem get (h : Serves l lockReady asked watching q) (real : type ≠ .lockNone)
    (fresh : l.inUse new = false) (idle : ¬ asked txn)
    (ask : ∀ t, asked' t ↔
      asked t ∨ txn = t ∧ (l.lockGet cfg ts lockReady type txn new).rc ≠ .Abort)
    (watch : ∀ t, t ≠ txn → (watching' t ↔ watching t))
    (mine : watching' txn ↔ (l.lockGet cfg ts lockReady type txn new).rc = .WAIT) :
    Serves (l.lockGet cfg ts lockReady type txn new).lock
      (l.lockGet cfg ts lockReady type txn new).lockReady asked' watching'
      (q.get cfg.ccAlg ts ⟨txn, type⟩).2 := by
  have new := h.notMem _ idle
  have others (r) (hr : r ∈ q.requests) : r.txn ≠ txn :=
    fun e => new (List.mem_map.mpr ⟨r, hr, e⟩)
  obtain ⟨rc, lock, flags, -⟩ := lockGet_spec txn cfg ts lockReady h.represents h.sound real fresh
  have sound := h.sound.get cfg.ccAlg ts (r := ⟨txn, type⟩) real new
  rw [rc] at mine
  simp only [rc] at ask
  rcases Queue.get_cases cfg.ccAlg ts q ⟨txn, type⟩ with e | ⟨ws, e, perm⟩ | e
  all_goals
    rw [e] at lock flags sound
    simp only [e, reduceCtorEq, ne_eq, not_true_eq_false, not_false_eq_true, and_false, and_true,
      or_false, if_true, if_false] at mine ask flags
    rw [e, flags]
  · -- Refused: nothing changes.
    refine ⟨lock, sound, fun t => (ask t).trans (h.requests t), fun w hw => ?_, fun o ho => ?_⟩
    · have ne := others w (List.mem_append_right _ hw)
      exact ⟨(watch _ ne).mpr (h.asleep w hw).1, (h.asleep w hw).2⟩
    · rw [watch _ (others o (List.mem_append_left _ ho))]
      exact h.awake o ho
  · -- The transaction waits, with its flag down.
    have mem (r : Request τ) : r ∈ (Queue.mk q.owners ws).requests ↔ r = ⟨txn, type⟩ ∨ r ∈ q.requests := by
      rw [Queue.requests, List.mem_append, perm.mem_iff, List.mem_cons, Queue.requests, List.mem_append]
      tauto
    refine ⟨lock, sound, fun t => ?_, fun w hw => ?_, fun o ho => ?_⟩
    · simp only [ask t, h.requests t, mem, or_and_right, exists_or, exists_eq_left]
      exact or_comm
    · rcases List.mem_cons.mp (perm.mem_iff.mp hw) with rfl | hw
      · exact ⟨mine.mpr trivial, Function.update_self ..⟩
      · have ne := others w (List.mem_append_right _ hw)
        rw [Function.update_of_ne ne]
        exact ⟨(watch _ ne).mpr (h.asleep w hw).1, (h.asleep w hw).2⟩
    · have ne := others o (List.mem_append_left _ ho)
      rw [Function.update_of_ne ne, watch _ ne]
      exact h.awake o ho
  · -- The transaction owns the row at once.
    refine ⟨lock, sound, fun t => ?_, fun w hw => ?_, fun o ho watches => ?_⟩
    · simp only [ask t, h.requests t, Queue.requests, List.cons_append, List.mem_cons, or_and_right,
        exists_or, exists_eq_left]
      exact or_comm
    · have ne := others w (List.mem_append_right _ hw)
      exact ⟨(watch _ ne).mpr (h.asleep w hw).1, (h.asleep w hw).2⟩
    · rcases List.mem_cons.mp ho with rfl | ho
      · exact absurd watches (by simpa using mine)
      · exact h.awake o ho ((watch _ (others o (List.mem_append_left _ ho))).mp watches)

/-- After `lock_release` the transaction has no request, and those that it let in are awake. -/
theorem release (h : Serves l lockReady asked watching q) (mine : asked txn)
    (ask : ∀ t, asked' t ↔ asked t ∧ t ≠ txn) (watch : ∀ t, t ≠ txn → (watching' t ↔ watching t)) :
    Serves (l.lockRelease lockReady txn).1 (l.lockRelease lockReady txn).2 asked' watching'
      (q.release txn) := by
  obtain ⟨lock, -, flags⟩ := lockRelease_spec h.represents h.sound.toConsistent
    ((h.requests txn).mp mine) fun w hw => (h.asleep w hw).2
  have sound : (q.release txn).Sound := h.sound.toConsistent.release
  refine ⟨lock, sound, fun t => ?_, fun w hw => ?_, fun o ho watches => ?_⟩
  · rw [ask t, h.requests t]
    constructor
    · rintro ⟨⟨r, hr, rfl⟩, ne⟩
      exact ⟨r, h.sound.toConsistent.mem_release.mpr ⟨hr, ne⟩, rfl⟩
    · rintro ⟨r, hr, rfl⟩
      obtain ⟨hr, ne⟩ := h.sound.toConsistent.mem_release.mp hr
      exact ⟨⟨r, hr, rfl⟩, ne⟩
  · -- Whoever still waits has not been granted.
    have waiter : w ∈ (q.remove txn).waiters := Queue.mem_waiters_iff.mpr (.inr hw)
    obtain ⟨before, ne⟩ := h.sound.toConsistent.mem_remove_waiters.mp waiter
    obtain ⟨watched, down⟩ := h.asleep w before
    refine ⟨(watch _ ne).mpr watched, ?_⟩
    by_contra up
    rcases (flags w.txn).mp (eq_true_of_ne_false up) with up | ⟨g, hg, e⟩
    · rw [down] at up
      cases up
    · exact sound.toConsistent.apart (Queue.mem_grant_owners.mpr (.inl hg)) hw e
  · refine (flags o.txn).mpr ?_
    rcases Queue.mem_grant_owners.mp ho with ho | ho
    · exact .inr ⟨o, ho, rfl⟩
    · obtain ⟨owner, ne⟩ := h.sound.toConsistent.mem_remove_owners.mp ho
      exact .inl (h.awake o owner ((watch _ ne).mp watches))

/-- `lock_get` changes no flag but that of the transaction, -/
theorem get_flag (h : Serves l lockReady asked watching q) (real : type ≠ .lockNone)
    (fresh : l.inUse new = false) {t : τ} (ne : t ≠ txn) :
    (l.lockGet cfg ts lockReady type txn new).lockReady t = lockReady t := by
  have flags := (lockGet_spec txn cfg ts lockReady h.represents h.sound real fresh).lockReady
  rw [flags]
  split
  · exact Function.update_of_ne ne ..
  · rfl

/-- and `lock_release` only flags of transactions that watch this row. -/
theorem release_flag (h : Serves l lockReady asked watching q) (mine : asked txn) {t : τ}
    (elsewhere : ¬ watching t) : (l.lockRelease lockReady txn).2 t = lockReady t := by
  obtain ⟨-, -, flags⟩ := lockRelease_spec h.represents h.sound.toConsistent
    ((h.requests txn).mp mine) fun w hw => (h.asleep w hw).2
  rw [Bool.eq_iff_iff, flags t]
  constructor
  · rintro (up | ⟨w, hw, rfl⟩)
    · exact up
    · have waiter : w ∈ (q.remove txn).waiters := Queue.mem_waiters_iff.mpr (.inl hw)
      have before := (h.sound.toConsistent.mem_remove_waiters.mp waiter).1
      exact absurd (h.asleep w before).1 elsewhere
  · exact .inl

theorem release_up (h : Serves l lockReady asked watching q) (mine : asked txn) {t : τ}
    (up : lockReady t = true) : (l.lockRelease lockReady txn).2 t = true := by
  obtain ⟨-, -, flags⟩ := lockRelease_spec h.represents h.sound.toConsistent
    ((h.requests txn).mp mine) fun w hw => (h.asleep w hw).2
  exact (flags t).mpr (.inl up)

end Serves

theorem lockType_ne (type : AccessType) : type.lockType ≠ .lockNone := by
  cases type <;> decide

end DBx1000.Locking
