import Mathlib.Algebra.Order.Ring.Nat
import DBx1000.Library.Family
import DBx1000.Plock.Partition
import Mathlib.Logic.Relation

/-!
# Partition locking is exclusive and free of deadlocks

## Main result

`plock_exclusive`: a partition has at most one owner, and its waiters are in the order of
their timestamps and younger than the owner, so no transactions wait for each other in a
circle; `ready_part` counts the partitions at which a transaction waits; a transaction with
RCOK owns all that it asked for, and a refused one stands nowhere.

## Proof strategy

The owner and the waiters of a partition are one line of transactions, in the order of their
timestamps. `Lines` relates the managers and the counters to the lines; the two rules `join`
and `leave` say what `PartMan::lock` and `PartMan::unlock` do to it. `PlockInv` adds that a
transaction stands in the lines of the partitions that its call has asked and not unlocked.
-/

namespace DBx1000.Plock

open Shift Transition

variable {π τ : Type*} [DecidableEq τ] {ts : τ → Nat} {gThreadCnt : Nat}

/-! ### Lines in the order of timestamps -/

/-- Each transaction is older than those behind it. -/
def Sorted (ts : τ → Nat) (line : List τ) : Prop := line.Pairwise (ts · < ts ·)

omit [DecidableEq τ] in
theorem Sorted.nodup {line : List τ} (sorted : Sorted ts line) : line.Nodup := by
  apply List.Pairwise.imp _ sorted
  rintro a b lt rfl
  exact Nat.lt_irrefl _ lt

omit [DecidableEq τ] in
/-- A transaction takes its place between older and younger ones. -/
theorem Sorted.insert {txn first : τ} {front back : List τ} (inj : Function.Injective ts)
    (sorted : Sorted ts (first :: (front ++ back))) (new : txn ∉ first :: (front ++ back))
    (younger : ts first < ts txn) (last : ∀ w ∈ front.getLast?, ts w < ts txn)
    (behind : ∀ w ∈ back, ts txn ≤ ts w) : Sorted ts (first :: (front ++ txn :: back)) := by
  obtain ⟨head, rest⟩ := List.pairwise_cons.mp sorted
  obtain ⟨ahead, after, apart⟩ := List.pairwise_append.mp rest
  have older (w : τ) (hw : w ∈ front) : ts w < ts txn := by
    -- the last one of the front is the youngest
    cases front.eq_nil_or_concat with
    | inl empty => rw [empty] at hw; cases hw
    | inr split =>
      obtain ⟨init, v, rfl⟩ := split
      have lastLt := last v (by rw [List.concat_eq_append, List.getLast?_concat]; rfl)
      rw [List.concat_eq_append] at hw ahead
      rcases List.mem_append.mp hw with hw | hw
      · exact Nat.lt_trans ((List.pairwise_append.mp ahead).2.2 w hw v List.mem_cons_self) lastLt
      · rw [List.mem_singleton] at hw
        rw [hw]
        exact lastLt
  -- timestamps are distinct, so none behind has the same one
  have strictly (w : τ) (hw : w ∈ back) : ts txn < ts w := by
    apply Nat.lt_of_le_of_ne (behind w hw)
    intro same
    rw [inj same] at new
    exact new (List.mem_cons_of_mem _ (List.mem_append_right _ hw))
  apply List.pairwise_cons.mpr
  constructor
  · intro w hw
    rcases List.mem_append.mp hw with hw | hw
    · exact head w (List.mem_append_left _ hw)
    · rcases List.mem_cons.mp hw with rfl | hw
      · exact younger
      · exact head w (List.mem_append_right _ hw)
  · apply List.pairwise_append.mpr
    refine ⟨ahead, List.pairwise_cons.mpr ⟨strictly, after⟩, ?_⟩
    intro v hv w hw
    rcases List.mem_cons.mp hw with rfl | hw
    · exact older v hv
    · exact apart v hv w hw

/-! ### The managers and the counters -/

variable [DecidableEq π] [Fintype π]

/-- At how many partitions the transaction waits. -/
def waitCount (line : π → List τ) (t : τ) : Nat :=
  (Finset.univ.filter fun p => t ∈ (line p).tail).card

/-- A transaction is counted anew only at the partition whose line changes. -/
theorem waitCount_update (line : π → List τ) (p : π) (l : List τ) (t : τ) :
    waitCount (Function.update line p l) t + (if t ∈ (line p).tail then 1 else 0) =
      waitCount line t + if t ∈ l.tail then 1 else 0 :=
  Family.card_update (fun l : List τ => t ∈ l.tail) line p l

/-- The managers have these lines, and the counters count the waiters in them. -/
structure Lines (ts : τ → Nat) (part : π → PartMan τ) (ready : τ → Int) (line : π → List τ) :
    Prop where
  parts : ∀ p, (part p).Represents (line p)
  sorted : ∀ p, Sorted ts (line p)
  ready : ∀ t, ready t = waitCount line t

namespace Lines

variable {part : π → PartMan τ} {ready : τ → Int} {line : π → List τ} {p : π} {t : τ}

/-- A manager with a new line, and the counters with it. -/
theorem update {m : PartMan τ} {ready' : τ → Int} {l : List τ} (h : Lines ts part ready line)
    (rep : m.Represents l) (sorted : Sorted ts l)
    (counts : ∀ u, ready' u + (if u ∈ (line p).tail then 1 else 0) =
      ready u + if u ∈ l.tail then 1 else 0) :
    Lines ts (Function.update part p m) ready' (Function.update line p l) := by
  constructor
  case parts =>
    intro q
    by_cases same : q = p
    · subst same
      rw [Function.update_self, Function.update_self]
      exact rep
    · rw [Function.update_of_ne same, Function.update_of_ne same]
      exact h.parts q
  case sorted =>
    intro q
    by_cases same : q = p
    · subst same
      rw [Function.update_self]
      exact sorted
    · rw [Function.update_of_ne same]
      exact h.sorted q
  -- the counter of a transaction changes with its place in this line
  case ready =>
    intro u
    have now := counts u
    have count := waitCount_update line p l u
    rw [h.ready u] at now
    by_cases before : u ∈ (line p).tail <;> by_cases after : u ∈ l.tail <;>
      simp only [before, after, if_true, if_false] at now count <;> omega

/-- A transaction that is not at the partition asks for it. -/
theorem join (inj : Function.Injective ts) (h : Lines ts part ready line) (new : t ∉ line p)
    {m : PartMan τ} {ready' : τ → Int} {rc : RC}
    (done : (part p).lock ts gThreadCnt ready t = some (m, ready', rc)) :
    if rc = .Abort then ready' = ready ∧ m = part p
    else ∃ l, Lines ts (Function.update part p m) ready' (Function.update line p l) ∧
      (∀ u, u ∈ l ↔ u ∈ line p ∨ u = t) ∧ ∀ u, u ∈ l.tail → u ∈ (line p).tail ∨ u = t := by
  -- the partition is free, or the transaction waits behind its owner, or it is refused
  rcases (h.parts p).lock done with ⟨rfl, empty, rfl, rep⟩ |
    ⟨rfl, rfl, first, front, back, split, rep, younger, last, behind⟩ | ⟨rfl, rfl, rfl⟩
  · rw [if_neg nofun, empty]
    refine ⟨[t], h.update rep (List.pairwise_singleton ..) ?_, by simp, by simp⟩
    intro u
    rw [empty]
    rfl
  · rw [if_neg nofun]
    have sorted := h.sorted p
    rw [split] at new sorted
    refine ⟨_, h.update rep (sorted.insert inj new younger last behind) ?_, ?_, ?_⟩
    · intro u
      rw [split, Function.update_apply]
      by_cases same : u = t
      · subst same
        have : u ∉ front ++ back := fun mem => new (List.mem_cons_of_mem _ mem)
        simp_all
      · simp [same]
    · intro u
      rw [split]
      simp only [List.mem_cons, List.mem_append]
      tauto
    · intro u
      rw [split]
      simp only [List.tail_cons, List.mem_cons, List.mem_append]
      tauto
  · rw [if_pos rfl]
    exact ⟨rfl, rfl⟩

/-- A transaction leaves the partition, as its owner or as a waiter. -/
theorem leave (h : Lines ts part ready line) (mem : t ∈ line p) :
    ∃ m ready', (part p).unlock ts ready t = some (m, ready') ∧
      Lines ts (Function.update part p m) ready' (Function.update line p ((line p).erase t)) ∧
        ∀ u, u ∈ ((line p).erase t).tail → u ∈ (line p).tail := by
  have sorted := h.sorted p
  have rep := h.parts p
  obtain ⟨first, rest, split⟩ : ∃ first rest, line p = first :: rest := by
    cases split : line p with
    | nil => rw [split] at mem; cases mem
    | cons first rest => exact ⟨first, rest, rfl⟩
  have distinct := sorted.nodup
  rw [split] at sorted distinct rep mem ⊢
  obtain ⟨head, order⟩ := List.pairwise_cons.mp sorted
  obtain ⟨outside, apart⟩ := List.nodup_cons.mp distinct
  -- the owner leaves, and the next one in the line becomes the owner
  by_cases mine : first = t
  · subst mine
    obtain ⟨m, done, after⟩ := rep.unlockOwner ready order
    rw [List.erase_cons_head]
    refine ⟨m, _, done, h.update after order ?_, fun u hu => List.mem_of_mem_tail hu⟩
    intro u
    rw [split, List.tail_cons]
    -- only the new owner does not wait any more
    cases rest with
    | nil => rfl
    | cons w rest =>
      have := (List.nodup_cons.mp apart).1
      rw [List.head?_cons, Option.elim_some, Function.update_apply, List.tail_cons]
      by_cases same : u = w
      · subst same
        simp [this]
      · simp [same]
  · -- a waiter leaves its place
    have waits : t ∈ rest := (List.mem_cons.mp mem).resolve_left (Ne.symm mine)
    obtain ⟨m, done, after⟩ := rep.unlockWaiter ready mine waits
    have shorter : (first :: rest.erase t).Sublist (first :: rest) :=
      List.erase_sublist.cons_cons first
    rw [List.erase_cons_tail (by simpa using mine)]
    refine ⟨m, _, done, h.update after (sorted.sublist shorter) ?_, fun u hu => List.mem_of_mem_erase hu⟩
    intro u
    rw [split, List.tail_cons, List.tail_cons, Function.update_apply]
    by_cases same : u = t
    · subst same
      simp [waits, apart.mem_erase_iff]
    · simp [same, apart.mem_erase_iff]

end Lines

/-! ### The transactions -/

namespace Pc

/-- The partitions in whose lines the transaction stands. -/
def parts : Pc π → List π
  | .idle | .aborted => []
  | .locking parts _ | .rollback parts | .waiting parts | .locked parts | .unlocking parts => parts

/-- The partitions that it has still to ask. -/
def ahead : Pc π → List π
  | .locking _ rest => rest
  | _ => []

/-- `Plock::lock` has returned RCOK and `Plock::unlock` has not finished. -/
def Granted : Pc π → Prop
  | .locked _ | .unlocking _ => True
  | _ => False

end Pc

structure PlockInv (ts : τ → Nat) (s : PlockState π τ) (line : π → List τ) : Prop where
  lines : Lines ts s.part s.readyPart line
  stands : ∀ t p, t ∈ line p ↔ p ∈ (s.pc t).parts
  distinct : ∀ t, ((s.pc t).parts ++ (s.pc t).ahead).Nodup
  granted : ∀ t p, (s.pc t).Granted → t ∉ (line p).tail

namespace PlockInv

variable {s s' : PlockState π τ} {line : π → List τ} {t : τ} {p : π}

omit [DecidableEq π] in
/-- A transaction that waits nowhere has the count 0. -/
theorem ready_eq_zero_iff (inv : PlockInv ts s line) :
    s.readyPart t = 0 ↔ ∀ p, t ∉ (line p).tail := by
  rw [inv.lines.ready t, Int.natCast_eq_zero]
  unfold waitCount
  rw [Finset.card_eq_zero, Finset.filter_eq_empty_iff]
  simp

omit [DecidableEq π] in
/-- A transaction goes on while the lines stay. -/
theorem goto {pc : Pc π} (inv : PlockInv ts s line) (same : pc.parts = (s.pc t).parts)
    (distinct : (pc.parts ++ pc.ahead).Nodup) (granted : pc.Granted → ∀ p, t ∉ (line p).tail) :
    PlockInv ts (s.goto t pc) line := by
  constructor
  case lines => exact inv.lines
  case stands =>
    intro u p
    change _ ↔ p ∈ (Function.update s.pc t pc u).parts
    rw [Function.update_apply]
    split
    · next e => rw [e, same]; exact inv.stands t p
    · exact inv.stands u p
  case distinct =>
    intro u
    change ((Function.update s.pc t pc u).parts ++ (Function.update s.pc t pc u).ahead).Nodup
    rw [Function.update_apply]
    split
    · exact distinct
    · exact inv.distinct u
  case granted =>
    intro u p yes
    change (Function.update s.pc t pc u).Granted at yes
    rw [Function.update_apply] at yes
    split at yes
    · next e => rw [e]; exact granted yes p
    · exact inv.granted u p yes

/-- A transaction goes on with the line of one partition changed for it. -/
theorem change {m : PartMan τ} {ready : τ → Int} {l : List τ} (pc : Pc π) (inv : PlockInv ts s line)
    (lines : Lines ts (Function.update s.part p m) ready (Function.update line p l))
    (others : ∀ u, u ≠ t → (u ∈ l ↔ u ∈ line p)) (waits : ∀ u, u ≠ t → u ∈ l.tail → u ∈ (line p).tail)
    (mine : ∀ q, q ∈ pc.parts ↔ if q = p then t ∈ l else q ∈ (s.pc t).parts)
    (distinct : (pc.parts ++ pc.ahead).Nodup)
    (granted : pc.Granted → ∀ q, t ∉ (Function.update line p l q).tail) :
    PlockInv ts
      (PlockState.goto { s with part := Function.update s.part p m, readyPart := ready } t pc)
      (Function.update line p l) := by
  unfold PlockState.goto
  constructor
  case lines => exact lines
  case stands =>
    intro u q
    dsimp only
    by_cases same : u = t
    · subst same
      rw [Function.update_self, mine q, Function.update_apply]
      split
      · rfl
      · exact inv.stands u q
    · rw [Function.update_of_ne same, Function.update_apply, ← inv.stands u q]
      split
      · next e => rw [e]; exact others u same
      · rfl
  case distinct =>
    intro u
    dsimp only
    rw [Function.update_apply]
    split
    · exact distinct
    · exact inv.distinct u
  case granted =>
    intro u q yes
    dsimp only at yes
    by_cases same : u = t
    · subst same
      rw [Function.update_self] at yes
      exact granted yes q
    · rw [Function.update_of_ne same] at yes
      rw [Function.update_apply]
      split
      · next e =>
        intro mem
        exact inv.granted u p yes (waits u same mem)
      · exact inv.granted u q yes

/-- The next partition is asked. -/
theorem lockPart {asked rest : List π} (inj : Function.Injective ts) (inv : PlockInv ts s line)
    (pc : s.pc t = .locking asked (p :: rest))
    (next : s.next ts gThreadCnt t = some s') : ∃ line', PlockInv ts s' line' := by
  have distinct := inv.distinct t
  rw [pc] at distinct
  have outside : p ∉ asked := by
    intro mem
    exact (List.nodup_append.mp distinct).2.2 p mem p List.mem_cons_self rfl
  -- the partitions of a call are distinct, so the transaction does not stand there yet
  have new : t ∉ line p := by
    rw [inv.stands, pc]
    exact outside
  unfold PlockState.next at next
  rw [pc] at next
  obtain ⟨⟨s₁, rc⟩, asks, rfl⟩ := Option.map_eq_some_iff.mp next
  obtain ⟨⟨m, ready, rc'⟩, done, e⟩ := Option.map_eq_some_iff.mp asks
  cases e
  have result := inv.lines.join inj new done
  dsimp only
  -- a refusal leaves the line, and the partitions asked before are given back
  by_cases refused : rc = .Abort
  · rw [if_pos refused] at result ⊢
    obtain ⟨rfl, rfl⟩ := result
    refine ⟨line, ?_⟩
    rw [Function.update_eq_self]
    apply inv.goto
    · rw [pc]; rfl
    · rw [show (Pc.rollback asked).parts ++ (Pc.rollback asked).ahead = asked from List.append_nil _]
      exact (List.nodup_append.mp distinct).1
    · exact False.elim
  · rw [if_neg refused] at result ⊢
    obtain ⟨l, lines, members, waits⟩ := result
    refine ⟨Function.update line p l, ?_⟩
    refine inv.change (.locking (asked ++ [p]) rest) lines ?_ ?_ ?_ ?_ False.elim
    · intro u ne
      rw [members]
      simp [ne]
    · intro u ne mem
      exact (waits u mem).resolve_right ne
    · intro q
      rw [pc, members]
      change q ∈ asked ++ [p] ↔ if q = p then _ else q ∈ asked
      split
      · next e => simp [e]
      · next ne => simp [ne]
    · change ((asked ++ [p]) ++ rest).Nodup
      rw [List.append_assoc]
      exact distinct

/-- A partition of the transaction is unlocked. -/
theorem unlockPart (rest : List π) (pc : Pc π) (inv : PlockInv ts s line)
    (stands : (s.pc t).parts = p :: rest) (parts : pc.parts = rest) (ahead : pc.ahead = [])
    (granted : pc.Granted → (s.pc t).Granted) :
    ∃ s₁ line', s.unlockPart ts p t = some s₁ ∧ PlockInv ts (s₁.goto t pc) line' := by
  have distinct := inv.distinct t
  rw [stands, List.cons_append] at distinct
  have outside : p ∉ rest := fun mem => (List.nodup_cons.mp distinct).1 (List.mem_append_left _ mem)
  -- the transaction stands at the partition, so `unlock` finds it
  have mem : t ∈ line p := by
    rw [inv.stands, stands]
    exact List.mem_cons_self
  have nodup := (inv.lines.sorted p).nodup
  obtain ⟨m, ready, done, lines, waits⟩ := inv.lines.leave mem
  have unlocked : s.unlockPart ts p t =
      some { s with part := Function.update s.part p m, readyPart := ready } := by
    unfold PlockState.unlockPart
    rw [done]
    rfl
  refine ⟨_, Function.update line p ((line p).erase t), unlocked, ?_⟩
  · refine inv.change pc lines ?_ (fun u _ => waits u) ?_ ?_ ?_
    · intro u ne
      rw [nodup.mem_erase_iff]
      simp [ne]
    · intro q
      rw [parts, stands, nodup.mem_erase_iff, List.mem_cons]
      split
      · next e => simp [e, outside]
      · next ne => simp [ne]
    · rw [parts, ahead, List.append_nil]
      exact ((List.nodup_cons.mp distinct).2).sublist (List.sublist_append_left ..)
    · intro yes q wait
      rw [Function.update_apply] at wait
      split at wait
      · exact inv.granted t p (granted yes) (waits t wait)
      · exact inv.granted t q (granted yes) wait

/-- A transaction that is in a call goes on, unless it spins or a partition has no room. -/
theorem next (inj : Function.Injective ts) (inv : PlockInv ts s line)
    (next : s.next ts gThreadCnt t = some s') : ∃ line', PlockInv ts s' line' := by
  cases pc : s.pc t with
  | idle => simp only [PlockState.next, pc] at next; cases next
  | aborted => simp only [PlockState.next, pc] at next; cases next
  | locked parts => simp only [PlockState.next, pc] at next; cases next
  | locking asked rest =>
    cases rest with
    | nil =>
      simp only [PlockState.next, pc] at next
      cases next
      have distinct := inv.distinct t
      rw [pc] at distinct
      exact ⟨line, inv.goto (by rw [pc]; rfl) distinct False.elim⟩
    | cons p rest => exact inv.lockPart inj pc next
  | rollback rest =>
    cases rest with
    | nil =>
      simp only [PlockState.next, pc] at next
      obtain ⟨-, e⟩ := (Option.ite_none_right_eq_some).mp next
      cases e
      exact ⟨line, inv.goto (by rw [pc]; rfl) List.nodup_nil False.elim⟩
    | cons p rest =>
      obtain ⟨s₁, line', done, after⟩ := inv.unlockPart rest (.rollback rest) (p := p)
        (by rw [pc]; rfl) rfl rfl False.elim
      simp only [PlockState.next, pc, done] at next
      cases next
      exact ⟨line', after⟩
  | waiting parts =>
    simp only [PlockState.next, pc] at next
    -- no partition is waited for any more
    obtain ⟨zero, e⟩ := (Option.ite_none_right_eq_some).mp next
    cases e
    have distinct := inv.distinct t
    rw [pc] at distinct
    refine ⟨line, inv.goto (by rw [pc]; rfl) distinct fun _ => ?_⟩
    exact inv.ready_eq_zero_iff.mp zero
  | unlocking rest =>
    cases rest with
    | nil =>
      simp only [PlockState.next, pc] at next
      cases next
      exact ⟨line, inv.goto (by rw [pc]; rfl) List.nodup_nil False.elim⟩
    | cons p rest =>
      obtain ⟨s₁, line', done, after⟩ := inv.unlockPart rest (.unlocking rest) (p := p)
        (by rw [pc]; rfl) rfl rfl (fun _ => by rw [pc]; trivial)
      simp only [PlockState.next, pc, done] at next
      cases next
      exact ⟨line', after⟩

theorem step {l : PlockLabel π τ} (inj : Function.Injective ts) (inv : PlockInv ts s line)
    (next : s.step ts gThreadCnt l = some s') : ∃ line', PlockInv ts s' line' := by
  cases l with
  | next t => exact inv.next inj next
  | unlock t =>
    cases pc : s.pc t with
    | locked parts =>
      simp only [PlockState.step, pc] at next
      cases next
      have distinct := inv.distinct t
      rw [pc] at distinct
      refine ⟨line, inv.goto (by rw [pc]; rfl) distinct fun _ p => ?_⟩
      exact inv.granted t p (by rw [pc]; trivial)
    | _ => simp only [PlockState.step, pc] at next; cases next
  | lock t parts =>
    have asks (none : (s.pc t).parts = []) (e : (if parts.Nodup then
        some (s.goto t (.locking [] parts)) else Option.none) = some s') :
        ∃ line', PlockInv ts s' line' := by
      obtain ⟨distinct, e⟩ := (Option.ite_none_right_eq_some).mp e
      cases e
      exact ⟨line, inv.goto none.symm distinct False.elim⟩
    cases pc : s.pc t with
    | idle =>
      simp only [PlockState.step, pc] at next
      exact asks (by rw [pc]; rfl) next
    | aborted =>
      simp only [PlockState.step, pc] at next
      exact asks (by rw [pc]; rfl) next
    | _ => simp only [PlockState.step, pc] at next; cases next

end PlockInv

theorem plockInv_of_reachable (inj : Function.Injective ts) {s : PlockState π τ}
    (reached : (plockMachine π ts gThreadCnt).Reachable Free s) : ∃ line, PlockInv ts s line := by
  refine reached.invariant (I := fun s => ∃ line, PlockInv ts s line) ?_ ?_
  · rintro s ⟨free, quiet⟩
    refine ⟨fun _ => [], ⟨?_, ?_, ?_⟩, ?_, ?_, ?_⟩
    · intro p
      exact .empty (free p).1 (free p).2
    · intro p
      exact List.Pairwise.nil
    · intro t
      rw [(quiet t).1]
      simp [waitCount]
    · intro t p
      rw [(quiet t).2]
      exact iff_of_false List.not_mem_nil List.not_mem_nil
    · intro t
      rw [(quiet t).2]
      exact List.nodup_nil
    · intro t p _
      exact List.not_mem_nil
  · rintro s l s' ⟨line, inv⟩ - next
    exact inv.step inj next

/-! ### The result -/

namespace PlockState

omit [DecidableEq π] [Fintype π] [DecidableEq τ] in
/-- At some partition `t` waits for `u`, which owns it or is ahead of it. -/
def WaitsFor (s : PlockState π τ) (t u : τ) : Prop :=
  ∃ p front back, (s.part p).waiterList = front ++ t :: back ∧
    ((s.part p).owner = some u ∨ u ∈ front)

/-- Where a transaction may stop: outside a call, spinning, or before a full partition. -/
def Stops (gThreadCnt : Nat) (s : PlockState π τ) (t : τ) : Prop :=
  match s.pc t with
  | .idle | .aborted | .locked _ => True
  | .waiting _ => 0 < s.readyPart t
  | .locking _ (p :: _) => gThreadCnt ≤ (s.part p).waiterCnt
  | .locking _ [] | .rollback _ | .unlocking _ => False

end PlockState

namespace PlockInv

variable {s : PlockState π τ} {line : π → List τ} {t u : τ}

omit [DecidableEq π] in
/-- Whoever waits is younger than all ahead of it. -/
theorem older (inv : PlockInv ts s line) (waits : s.WaitsFor t u) : ts u < ts t := by
  obtain ⟨p, front, back, split, ahead⟩ := waits
  have sorted := inv.lines.sorted p
  obtain ⟨owner, waiters⟩ := inv.lines.parts p
  cases all : line p with
  | nil =>
    rw [waiters, all] at split
    simp at split
  | cons first rest =>
    rw [all] at sorted owner waiters
    have tail : rest = front ++ t :: back := waiters.symm.trans split
    unfold Sorted at sorted
    rw [tail] at sorted
    obtain ⟨head, order⟩ := List.pairwise_cons.mp sorted
    rcases ahead with own | mem
    · rw [owner] at own
      cases own
      exact head t (List.mem_append_right _ List.mem_cons_self)
    · exact (List.pairwise_append.mp order).2.2 u mem t List.mem_cons_self

/-- A transaction that goes no further spins, or has returned, or finds no room. -/
theorem stops (inv : PlockInv ts s line) (stuck : s.next ts gThreadCnt t = none) :
    s.Stops gThreadCnt t := by
  unfold PlockState.Stops
  cases pc : s.pc t with
  | idle => trivial
  | aborted => trivial
  | locked parts => trivial
  | waiting parts =>
    simp only [PlockState.next, pc] at stuck
    split at stuck
    · cases stuck
    · -- the counter is that of the lines it waits in
      next spins =>
      have := inv.lines.ready t
      change 0 < s.readyPart t
      omega
  | locking asked rest =>
    cases rest with
    | nil => simp only [PlockState.next, pc] at stuck; cases stuck
    | cons p rest =>
      simp only [PlockState.next, pc, PlockState.lockPart, Option.map_eq_none_iff] at stuck
      unfold PartMan.lock at stuck
      split at stuck
      · cases stuck
      · split at stuck
        · split at stuck
          · cases stuck
          · -- only a full waiter list stops the request
            next full => exact Nat.le_of_not_lt full
        · cases stuck
  | rollback rest =>
    cases rest with
    | nil =>
      -- the transaction stands nowhere, so the assertion holds
      have zero : s.readyPart t = 0 := by
        rw [inv.ready_eq_zero_iff]
        intro p mem
        have := (inv.stands t p).mp (List.mem_of_mem_tail mem)
        rw [pc] at this
        cases this
      simp only [PlockState.next, pc, zero, if_true] at stuck
      cases stuck
    | cons p rest =>
      obtain ⟨s₁, line', done, -⟩ := inv.unlockPart rest (.rollback rest) (p := p)
        (by rw [pc]; rfl) rfl rfl False.elim
      simp only [PlockState.next, pc, done] at stuck
      cases stuck
  | unlocking rest =>
    cases rest with
    | nil => simp only [PlockState.next, pc] at stuck; cases stuck
    | cons p rest =>
      obtain ⟨s₁, line', done, -⟩ := inv.unlockPart rest (.unlocking rest) (p := p)
        (by rw [pc]; rfl) rfl rfl (fun _ => by rw [pc]; trivial)
      simp only [PlockState.next, pc, done] at stuck
      cases stuck

end PlockInv

/-- **Partition locking.** In every state that transactions with distinct timestamps reach,
the owner of a partition is older than its waiters, who are in order, and nobody waits in a
circle; `ready_part` counts the partitions at which a transaction waits; RCOK means that all
partitions asked for are owned, and Abort that none is owned or waited for. No assertion
fails but the one on the length of the array. -/
theorem plock_exclusive (inj : Function.Injective ts) (s : PlockState π τ)
    (reached : (plockMachine π ts gThreadCnt).Reachable Free s) :
    (∀ p, ((s.part p).owner = none → (s.part p).waiterList = []) ∧
      ∀ owner, (s.part p).owner = some owner →
        (owner :: (s.part p).waiterList).Pairwise (ts · < ts ·)) ∧
    (∀ t, ¬ Relation.TransGen s.WaitsFor t t) ∧
    (∀ t, s.readyPart t = (Finset.univ.filter fun p => t ∈ (s.part p).waiterList).card) ∧
    (∀ t parts, s.pc t = .locked parts → ∀ p ∈ parts, (s.part p).owner = some t) ∧
    (∀ t, s.pc t = .aborted → s.readyPart t = 0 ∧
      ∀ p, (s.part p).owner ≠ some t ∧ t ∉ (s.part p).waiterList) ∧
    ∀ t, s.next ts gThreadCnt t = none → s.Stops gThreadCnt t := by
  obtain ⟨line, inv⟩ := plockInv_of_reachable inj reached
  have waiters (p : π) : (s.part p).waiterList = (line p).tail := (inv.lines.parts p).waiters
  have owner (p : π) : (s.part p).owner = (line p).head? := (inv.lines.parts p).owner
  refine ⟨?_, ?_, ?_, ?_, ?_, fun t => inv.stops⟩
  · intro p
    have sorted := inv.lines.sorted p
    rw [waiters, owner]
    cases all : line p with
    | nil => exact ⟨fun _ => rfl, nofun⟩
    | cons first rest =>
      rw [all] at sorted
      refine ⟨nofun, ?_⟩
      rintro o e
      cases e
      exact sorted
  · intro t cycle
    -- whoever is waited for is older
    have older (u : τ) (path : Relation.TransGen s.WaitsFor t u) : ts u < ts t := by
      induction path with
      | single edge => exact inv.older edge
      | tail _ edge ih => exact Nat.lt_trans (inv.older edge) ih
    exact Nat.lt_irrefl _ (older t cycle)
  · intro t
    simp only [waiters]
    exact inv.lines.ready t
  · intro t parts pc p hp
    have mem : t ∈ line p := by
      rw [inv.stands, pc]
      exact hp
    -- it waits nowhere, so it stands first
    have first := inv.granted t p (by rw [pc]; trivial)
    rw [owner]
    cases split : line p with
    | nil => rw [split] at mem; cases mem
    | cons o rest =>
      rw [split] at mem first
      rw [List.head?_cons, (List.mem_cons.mp mem).resolve_right first]
  · intro t pc
    -- an aborted transaction has left all lines
    have nowhere (p : π) : t ∉ line p := by
      rw [inv.stands, pc]
      exact List.not_mem_nil
    refine ⟨?_, fun p => ⟨?_, ?_⟩⟩
    · rw [inv.ready_eq_zero_iff]
      intro p mem
      exact nowhere p (List.mem_of_mem_tail mem)
    · rw [owner]
      intro e
      exact nowhere p (List.mem_of_mem_head? e)
    · rw [waiters]
      intro mem
      exact nowhere p (List.mem_of_mem_tail mem)

/-- Three transactions at two partitions: the first owns both, the third waits at the second
one before the second transaction takes its place ahead of it. -/
def overtaking (p q : Fin 2) : List (PlockLabel (Fin 2) Nat) :=
  [.lock 1 [p, q], .next 1, .next 1, .next 1, .next 1, .lock 3 [q], .next 3, .lock 2 [q, p],
    .next 2, .next 2, .unlock 1, .next 1]

theorem plock_exclusive_overtaking : ∃ s : PlockState (Fin 2) Nat,
    (plockMachine (Fin 2) id 3).Reachable Free s ∧ (s.part 1).waiterList = [2, 3] ∧
      (s.part 0).owner = some 2 ∧ s.readyPart 2 = 1 ∧ ¬ Relation.TransGen s.WaitsFor 3 3 := by
  let s₀ : PlockState (Fin 2) Nat :=
    { part := fun _ => ⟨none, fun _ => 0, 0⟩, readyPart := fun _ => 0, pc := fun _ => .idle }
  obtain ⟨s, path, e⟩ := (plockMachine (Fin 2) id 3).exists_along Free s₀ (overtaking 0 1)
    (fun s => ((s.part 1).waiterList, (s.part 0).owner, s.readyPart 2)) ([2, 3], some 2, 1)
    (by decide)
  simp only [Prod.mk.injEq] at e
  have reached : (plockMachine (Fin 2) id 3).Reachable Free s :=
    ⟨_, _, ⟨fun _ => ⟨rfl, rfl⟩, fun _ => ⟨rfl, rfl⟩⟩, path⟩
  exact ⟨s, reached, e.1, e.2.1, e.2.2,
    (plock_exclusive Function.injective_id s reached).2.1 3⟩

end DBx1000.Plock
