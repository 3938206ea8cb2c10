import DBx1000.Library.Shift
import DBx1000.Library.Transition
import DBx1000.System.Global
import Mathlib.Data.Fintype.Card

/-!
# Partition locks

H-Store locks whole partitions. `PartMan` has an owner and an array of waiters in the order
of their timestamps; an older transaction than the owner is refused. `Plock::lock` asks all
partitions of a list one after the other, so a transaction can wait at several of them; its
`ready_part` counts those, and it spins until the count is 0.

`PartMan::lock` and `PartMan::unlock` run under the latch of the partition and are single
steps. A failed assertion stops the program: the step has no next state.
-/

namespace DBx1000.Plock

open Shift Transition

/-! ### The manager of a partition -/

section PartMan

variable {τ : Type*}

structure PartMan (τ : Type*) where
  owner : Option τ
  /-- What the array has behind the first `waiterCnt` cells is left over. -/
  waiters : Nat → τ
  waiterCnt : Nat

namespace PartMan

/-- The waiters in the order of the array. -/
def waiterList (m : PartMan τ) : List τ := cells m.waiters m.waiterCnt

variable [DecidableEq τ]

/-- `PartMan::lock`; `ready` has the `ready_part` of every transaction. -/
def lock (ts : τ → Nat) (gThreadCnt : Nat) (m : PartMan τ) (ready : τ → Int) (txn : τ) :
    Option (PartMan τ × (τ → Int) × RC) :=
  match m.owner with
  | none => some ({ m with owner := some txn }, ready, .RCOK)
  | some owner =>
    if ts owner < ts txn then
      if m.waiterCnt < gThreadCnt then
        let waiters := insertFromEnd (fun w => ts txn > ts w) txn m.waiterCnt m.waiters
        some ({ m with waiters := waiters, waiterCnt := m.waiterCnt + 1 },
          Function.update ready txn (ready txn + 1), .WAIT)
      else none
    else some (m, ready, .Abort)

/-- `PartMan::unlock`. -/
def unlock (ts : τ → Nat) (m : PartMan τ) (ready : τ → Int) (txn : τ) :
    Option (PartMan τ × (τ → Int)) :=
  if m.owner = some txn then
    if m.waiterCnt = 0 then some ({ m with owner := none }, ready)
    else
      let owner := m.waiters 0
      (shiftDown (fun v w => ts v < ts w) (m.waiterCnt - 1) 0 m.waiters).map fun waiters =>
        (⟨some owner, waiters, m.waiterCnt - 1⟩, Function.update ready owner (ready owner - 1))
  else
    let (waiters, find) := removeLoop (· = txn) m.waiterCnt m.waiterCnt 0 false m.waiters
    if find then
      some ({ m with waiters := waiters, waiterCnt := m.waiterCnt - 1 },
        Function.update ready txn (ready txn - 1))
    else none

end PartMan

end PartMan

/-! ### Transactions that lock lists of partitions -/

/-- Where a transaction is in `Plock::lock` or `Plock::unlock`, or what the call returned. -/
inductive Pc (π : Type*)
  | idle
  /-- The partitions that have been asked, and those that have not. -/
  | locking (asked rest : List π)
  /-- A partition has refused; these remain to be unlocked. -/
  | rollback (rest : List π)
  | aborted
  /-- All have been asked; the transaction spins on `ready_part`. -/
  | waiting (parts : List π)
  /-- `Plock::lock` has returned RCOK. -/
  | locked (parts : List π)
  | unlocking (rest : List π)

structure PlockState (π τ : Type*) where
  part : π → PartMan τ
  readyPart : τ → Int
  pc : τ → Pc π

inductive PlockLabel (π τ : Type*)
  | lock (txn : τ) (parts : List π)
  | unlock (txn : τ)
  | next (txn : τ)

namespace PlockState

variable {π τ : Type*} [DecidableEq π] [DecidableEq τ]

def goto (s : PlockState π τ) (txn : τ) (pc : Pc π) : PlockState π τ :=
  { s with pc := Function.update s.pc txn pc }

/-- `part_mans[part_id]->lock(txn)`. -/
def lockPart (ts : τ → Nat) (gThreadCnt : Nat) (s : PlockState π τ) (p : π) (txn : τ) :
    Option (PlockState π τ × RC) :=
  ((s.part p).lock ts gThreadCnt s.readyPart txn).map fun (m, ready, rc) =>
    ({ s with part := Function.update s.part p m, readyPart := ready }, rc)

/-- `part_mans[part_id]->unlock(txn)`. -/
def unlockPart (ts : τ → Nat) (s : PlockState π τ) (p : π) (txn : τ) : Option (PlockState π τ) :=
  ((s.part p).unlock ts s.readyPart txn).map fun (m, ready) =>
    { s with part := Function.update s.part p m, readyPart := ready }

/-- The next step of a transaction in a call. -/
def next (ts : τ → Nat) (gThreadCnt : Nat) (s : PlockState π τ) (txn : τ) : Option (PlockState π τ) :=
  match s.pc txn with
  | .locking asked [] => some (s.goto txn (.waiting asked))
  | .locking asked (p :: rest) =>
    (s.lockPart ts gThreadCnt p txn).map fun (s, rc) =>
      s.goto txn (if rc = .Abort then .rollback asked else .locking (asked ++ [p]) rest)
  | .rollback [] => if s.readyPart txn = 0 then some (s.goto txn .aborted) else none
  | .rollback (p :: rest) => (s.unlockPart ts p txn).map fun s => s.goto txn (.rollback rest)
  | .waiting parts =>
    -- the loop `while (txn->ready_part > 0) {}` and the assertion behind it
    if s.readyPart txn = 0 then some (s.goto txn (.locked parts)) else none
  | .unlocking [] => some (s.goto txn .idle)
  | .unlocking (p :: rest) => (s.unlockPart ts p txn).map fun s => s.goto txn (.unlocking rest)
  | .idle | .aborted | .locked _ => none

def step (ts : τ → Nat) (gThreadCnt : Nat) (s : PlockState π τ) :
    PlockLabel π τ → Option (PlockState π τ)
  | .lock txn parts => match s.pc txn with
    | .idle | .aborted => if parts.Nodup then some (s.goto txn (.locking [] parts)) else none
    | _ => none
  | .unlock txn => match s.pc txn with
    | .locked parts => some (s.goto txn (.unlocking parts))
    | _ => none
  | .next txn => s.next ts gThreadCnt txn

end PlockState

def plockMachine (π : Type*) {τ : Type*} [DecidableEq π] [DecidableEq τ] (ts : τ → Nat)
    (gThreadCnt : Nat) : Machine (PlockState π τ) (PlockLabel π τ) where
  init s := (∀ p, (s.part p).owner = none ∧ (s.part p).waiterCnt = 0) ∧
    ∀ t, s.readyPart t = 0 ∧ s.pc t = .idle
  step s l := s.step ts gThreadCnt l

/-! ### The line at a partition -/

namespace PartMan

variable {τ : Type*} {m : PartMan τ} {line : List τ}

/-- The transactions at the partition: the first one owns it and the others wait. -/
structure Represents (m : PartMan τ) (line : List τ) : Prop where
  owner : m.owner = line.head?
  waiters : m.waiterList = line.tail

theorem Represents.waiterCnt (rep : m.Represents line) : m.waiterCnt = line.length - 1 := by
  rw [← List.length_tail, ← rep.waiters]
  exact length_cells.symm

theorem Represents.empty (owner : m.owner = none) (none : m.waiterCnt = 0) : m.Represents [] := by
  refine ⟨owner, ?_⟩
  unfold waiterList
  rw [none]
  rfl

variable [DecidableEq τ] {ts : τ → Nat} {gThreadCnt : Nat} {ready : τ → Int} {txn : τ}

/-- A transaction becomes the first one, or takes its place in the line, or is refused. -/
theorem Represents.lock (rep : m.Represents line) {m' : PartMan τ} {ready' : τ → Int} {rc : RC}
    (done : m.lock ts gThreadCnt ready txn = some (m', ready', rc)) :
    (rc = .RCOK ∧ line = [] ∧ ready' = ready ∧ m'.Represents [txn]) ∨
    (rc = .WAIT ∧ ready' = Function.update ready txn (ready txn + 1) ∧
      ∃ first front back, line = first :: (front ++ back) ∧
        m'.Represents (first :: (front ++ txn :: back)) ∧ ts first < ts txn ∧
        (∀ w ∈ front.getLast?, ts w < ts txn) ∧ ∀ w ∈ back, ts txn ≤ ts w) ∨
    (rc = .Abort ∧ ready' = ready ∧ m' = m) := by
  unfold PartMan.lock at done
  cases line with
  | nil =>
    left
    have owner : m.owner = none := rep.owner
    rw [owner] at done
    cases done
    exact ⟨rfl, rfl, rfl, rfl, rep.waiters⟩
  | cons first rest =>
    right
    have owner : m.owner = some first := rep.owner
    rw [owner] at done
    dsimp only at done
    split at done
    · next younger =>
      left
      split at done
      · cases done
        obtain ⟨front, back, split, made, skipped, stops⟩ :=
          insertFromEnd_spec (fun w => decide (ts txn > ts w)) txn m.waiterCnt m.waiters
        have waiters : cells m.waiters m.waiterCnt = rest := rep.waiters
        refine ⟨rfl, rfl, first, front, back, ?_, ⟨rfl, made⟩, younger, ?_, ?_⟩
        · rw [← split, waiters]
        · intro w hw
          simpa using stops w hw
        · intro w hw
          simpa using skipped w hw
      · cases done
    · right
      cases done
      exact ⟨rfl, rfl, rfl⟩

omit [DecidableEq τ] in
theorem Represents.getElem? {first : τ} {rest : List τ} (rep : m.Represents (first :: rest))
    {j : Nat} (lt : j < m.waiterCnt) : rest[j]? = some (m.waiters j) := by
  rw [← show cells m.waiters m.waiterCnt = rest from rep.waiters, getElem?_cells, if_pos lt]

/-- The owner leaves the line, and the first waiter is promoted. -/
theorem Represents.unlockOwner {rest : List τ} (ready : τ → Int) (rep : m.Represents (txn :: rest))
    (sorted : rest.Pairwise (ts · < ts ·)) : ∃ m', m.unlock ts ready txn =
        some (m', rest.head?.elim ready fun w => Function.update ready w (ready w - 1)) ∧
      m'.Represents rest := by
  have waiters : cells m.waiters m.waiterCnt = rest := rep.waiters
  have owner : m.owner = some txn := rep.owner
  unfold PartMan.unlock
  rw [if_pos owner]
  split
  · next none =>
    rw [none] at waiters
    have empty : rest = [] := waiters.symm
    subst empty
    exact ⟨_, rfl, .empty rfl none⟩
  · next some =>
    -- the line is in order, so the assertion in the loop holds
    have shifted := shiftDown_eq (fun v w => decide (ts v < ts w)) m.waiters
      (n := m.waiterCnt - 1) (i := 0) (by
        intro j _ lt
        obtain ⟨lt₁, e₁⟩ := List.getElem?_eq_some_iff.mp (rep.getElem? (j := j) (by omega))
        obtain ⟨lt₂, e₂⟩ := List.getElem?_eq_some_iff.mp (rep.getElem? (j := j + 1) (by omega))
        rw [← e₁, ← e₂]
        exact decide_eq_true (List.pairwise_iff_getElem.mp sorted j (j + 1) lt₁ lt₂ (by omega)))
    have head : rest.head? = .some (m.waiters 0) := by
      rw [List.head?_eq_getElem?]
      exact rep.getElem? (by omega)
    rw [shifted, head]
    refine ⟨_, rfl, head.symm, ?_⟩
    have closed := cells_close m.waiters (k := 0) (n := m.waiterCnt) (by omega)
    rw [waiters, List.eraseIdx_zero] at closed
    rw [← closed]
    unfold waiterList
    simp only [Nat.zero_add]

/-- A waiter leaves the line from any place. -/
theorem Represents.unlockWaiter {first : τ} {rest : List τ} (ready : τ → Int)
    (rep : m.Represents (first :: rest))
    (ne : first ≠ txn) (mem : txn ∈ rest) : ∃ m', m.unlock ts ready txn =
        some (m', Function.update ready txn (ready txn - 1)) ∧
      m'.Represents (first :: rest.erase txn) := by
  have owner : m.owner = some first := rep.owner
  have waiters : cells m.waiters m.waiterCnt = rest := rep.waiters
  unfold PartMan.unlock
  rw [owner, if_neg (by simpa using ne)]
  have lt : rest.idxOf txn < m.waiterCnt := by
    rw [rep.waiterCnt]
    exact List.idxOf_lt_length_of_mem mem
  have removed := removeLoop_eq (fun w => decide (w = txn)) m.waiters
    (n := m.waiterCnt) (i := 0) (k := rest.idxOf txn) (Nat.zero_add _) (Nat.zero_le _) lt (by
      intro j _ before
      obtain ⟨lt', e⟩ := List.getElem?_eq_some_iff.mp (rep.getElem? (j := j) (by omega))
      rw [← e]
      simpa using List.not_of_lt_findIdx before) (by
      obtain ⟨lt', e⟩ := List.getElem?_eq_some_iff.mp (rep.getElem? lt)
      rw [← e]
      exact decide_eq_true (List.getElem_idxOf lt'))
  rw [removed]
  refine ⟨_, rfl, rfl, ?_⟩
  unfold waiterList
  dsimp only
  rw [cells_close _ lt, waiters, List.eraseIdx_idxOf_eq_erase, List.tail_cons]

end PartMan

end DBx1000.Plock
