import Mathlib.Algebra.Order.Ring.Nat
import DBx1000.Epoch.Grace
import DBx1000.Epoch.Lists

/-!
# Reclamation is safe while winners are prompt

A node is destroyed by the thread that advanced the epoch from `cur`, after a scan that
left no section begun before epoch `cur`. If that thread takes the lists before the epoch
moves on again, everything in them was retired before epoch `cur`.

## Main result

`reclaim_safe`: in every interleaving whose winners are prompt and whose epochs fit the `int`, no
node is destroyed while a critical section is open that was entered before the node was retired.

## Proof strategy

What `Epoch.Grace` says of a scan is kept for the winner until it has taken its lists, and the
lists are those of `Epoch.Lists`: all that is in them was retired before epoch `cur`.
-/

namespace DBx1000.Epoch

open Transition

variable {τ ν : Type*}

/-- The epoch of a winner that is about to take the retired lists. -/
def Pc.collecting : Pc τ ν → Option Nat
  | .gcPop cur => some cur
  | _ => none

/-- The epoch that a thread is about to advance. -/
def Pc.advancing : Pc τ ν → Option Nat
  | .gcCas cur => some cur
  | _ => none

/-- No pop of a free slot acts on a stale `next` pointer, a winner takes the retired lists
before the epoch advances again, and the `int` that counts epochs does not overflow. -/
def Prompt (s : State τ ν) (a : Label τ ν) : Prop :=
  FreshPop s a ∧ match a with
    | .next t _ => (∀ cur ∈ (s.pc t).collecting, s.epoch = cur + 1) ∧
        ∀ cur ∈ (s.pc t).advancing, cur + 1 < 2 ^ 31
    | _ => True

instance (s : State τ ν) (a : Label τ ν) : Decidable (Prompt s a) :=
  match a with
  | .next t env => inferInstanceAs (Decidable (FreshPop s (.next t env) ∧
      (∀ cur ∈ (s.pc t).collecting, s.epoch = cur + 1) ∧
        ∀ cur ∈ (s.pc t).advancing, cur + 1 < 2 ^ 31))
  | .register t => inferInstanceAs (Decidable (FreshPop s (.register t) ∧ True))
  | .epochEnter t => inferInstanceAs (Decidable (FreshPop s (.epochEnter t) ∧ True))
  | .epochExit t => inferInstanceAs (Decidable (FreshPop s (.epochExit t) ∧ True))
  | .ebrRetire t n => inferInstanceAs (Decidable (FreshPop s (.ebrRetire t n) ∧ True))
  | .exit t => inferInstanceAs (Decidable (FreshPop s (.exit t) ∧ True))

/-- What runs keep. -/
structure Inv (s : State τ ν) : Prop where
  slots : s.slots.Inv
  sections : Sections s
  scanned : ∀ t, Scanned s (s.pc t)
  lists : ∃ lists, Lists s lists

variable [DecidableEq τ] [DecidableEq ν] {threshold : Nat} {s s' : State τ ν}

/-- Only a step inside a function can be an advance of the epoch. -/
theorem Prompt.room {a : Label τ ν} (prompt : Prompt s a)
    (h : Epoch.step threshold s a = some s') (here : s.pc a.thread = .gcCas s.epoch) :
    s.epoch + 1 < 2 ^ 31 := by
  cases a with
  | next t env => exact prompt.2.2 s.epoch (by rw [show s.pc t = _ from here]; rfl)
  | register t | epochEnter t | epochExit t | ebrRetire t ptr | exit t =>
    have here : s.pc t = .gcCas s.epoch := here
    simp only [Epoch.step] at h
    split at h
    · cases h
    · simp [act, here] at h

theorem Inv.step (hi : Inv s) {a : Label τ ν} (prompt : Prompt s a)
    (h : Epoch.step threshold s a = some s') : Inv s' := by
  obtain ⟨t, move⟩ := step_slots h prompt.1
  refine ⟨hi.slots.step move, hi.sections.step h (prompt.room h),
    step_scanned hi.slots hi.sections hi.scanned h (prompt.room h), ?_⟩
  simp only [Epoch.step] at h
  split at h
  · cases h
  · obtain ⟨u, hu, rfl⟩ := Option.map_eq_some_iff.mp h
    obtain ⟨lists, hl⟩ := hi.lists
    obtain ⟨lists', hl'⟩ := hl.act hi.sections (fun t env cur e hp => by
      subst e
      exact prompt.2.1 cur (by rw [hp]; rfl)) hu
    exact ⟨lists', hl'.apart, hl'.belongs, hl'.fits, hl'.linked⟩

theorem inv_of_reachable (reached : (machine threshold τ ν).Reachable Prompt s) : Inv s := by
  refine reached.invariant ?_ (fun s a s' hi prompt h => hi.step prompt h)
  rintro s ⟨next, rfl⟩
  exact ⟨initial_slots next, Sections.init next, fun _ => trivial, _, Lists.init next⟩

/-- No node that a thread is about to pass to `bsl_node_destroy` was retired after the
beginning of a critical section that has not ended. -/
def ReclaimSafe (s : State τ ν) : Prop :=
  ∀ t cur n next, s.pc t = .destroy cur n next → ∀ u, (s.ctx u).inCritical = true →
    ∃ r, s.retiredAt n = some r ∧ r < s.enteredAt u

/-- Reclamation is safe in every run in which winners are prompt. -/
theorem reclaim_safe (reached : (machine threshold τ ν).Reachable Prompt s) : ReclaimSafe s := by
  intro t cur n next hp u critical
  have hi := inv_of_reachable reached
  obtain ⟨lists, hl⟩ := hi.lists
  have scanned := hi.scanned t
  obtain ⟨early, gone⟩ := hl.fits t n (by rw [State.hand, hp]; rfl)
  rw [hp] at scanned early
  obtain ⟨r, hr⟩ := Option.ne_none_iff_exists'.mp gone
  have began : cur ≤ s.enterEpoch u :=
    Nat.not_lt.mp fun later => scanned.2 u ⟨critical, later⟩
  exact ⟨r, hr, hi.sections.order n r u hr (Nat.lt_of_lt_of_le early began)⟩

/-- Thread 0 retires a node in epoch 0 and is about to destroy it as the winner of epoch 1,
while thread 2 is in a section. -/
theorem reclaim_safe_prompt : ∃ s : State (Fin 3) Unit,
    (s.pc 0 = .destroy 1 () none ∧ (s.ctx 2).inCritical = true) ∧ ReclaimSafe s := by
  obtain ⟨s, run, view⟩ := (machine 1 (Fin 3) Unit).exists_along Prompt initial
    (joins 0 ++ [.ebrRetire 0 (), .next 0 0, .next 0 0, .epochExit 0] ++
      List.replicate 10 (.next 0 0) ++ [.epochEnter 0, .epochExit 0] ++
      List.replicate 10 (.next 0 0) ++ joins 2)
    (fun s => (s.pc 0, (s.ctx 2).inCritical)) (.destroy 1 () none, true) (by decide +kernel)
  exact ⟨s, Prod.mk.inj view, reclaim_safe ⟨initial, _, ⟨_, rfl⟩, run⟩⟩

/-! ### A winner that is late

The threads reach `try_gc` only after 65536 critical sections, so the run starts with that
many for each of two threads. -/

/-- The state after `k` critical sections of thread `t`, the first at time `b`, in which
nothing else happened. -/
def idled (s : State τ ν) (b : Nat) (t : τ) (k : Nat) : State τ ν :=
  { s.setCtx t { s.ctx t with epochTick := k, opCount := k / 256 } with
    clock := b + 2 * k + 2 * (k / 256)
    enterEpoch := Function.update s.enterEpoch t s.epoch
    enteredAt := Function.update s.enteredAt t (b + 2 * (k - 1) + 2 * ((k - 1) / 256)) }

/-- A thread between two calls that knows the current epoch and has passed one critical
section, begun at time `b`. -/
structure Idle (s : State τ ν) (b : Nat) (t : τ) : Prop where
  alive : s.halted = false
  ready : s.pc t = .ready
  out : (s.ctx t).inCritical = false
  current : (s.ctx t).localEpoch = s.epoch
  once : (s.ctx t).epochTick = 1 ∧ (s.ctx t).opCount = 0
  times : s.clock = b + 2 ∧ s.enterEpoch t = s.epoch ∧ s.enteredAt t = b

/-- Enter and exit, with the refresh of the local epoch at every 256th exit. -/
def rounds (t : τ) (k : Nat) : Nat → List (Label τ ν)
  | 0 => []
  | n + 1 => [.epochEnter t, .epochExit t] ++
      (if (k + 1) % 256 = 0 then [.next t 0, .next t 0] else []) ++ rounds t (k + 1) n

omit [DecidableEq ν] in
theorem Idle.idled_one {s : State τ ν} {b : Nat} {t : τ} (idle : Idle s b t) :
    idled s b t 1 = s := by
  obtain ⟨tick, ops⟩ := idle.once
  obtain ⟨clock, epoch, entered⟩ := idle.times
  have ctx : ({ s.ctx t with epochTick := 1, opCount := 1 / 256 } : Ctx ν) = s.ctx t := by
    rw [show 1 / 256 = 0 from rfl, ← tick, ← ops]
  have began : b + 2 * (1 - 1) + 2 * ((1 - 1) / 256) = s.enteredAt t := entered.symm
  have now : b + 2 * 1 + 2 * (1 / 256) = s.clock := clock.symm
  have kept : Function.update s.enterEpoch t s.epoch = s.enterEpoch := by
    rw [← epoch, Function.update_eq_self]
  unfold idled State.setCtx
  rw [ctx, began, now, kept, Function.update_eq_self, Function.update_eq_self]

theorem Idle.run_rounds {s : State τ ν} {b : Nat} {t : τ} (idle : Idle s b t) {n k m : Nat}
    (sum : k + n = m) (few : m < 256 * 256) :
    (machine 256 τ ν).run (idled s b t k) (rounds t k n) = some (idled s b t m) := by
  obtain ⟨alive, ready, out, current, -, -⟩ := idle
  obtain ⟨running, inside⟩ : s.aborted = false ∧ s.overrun = false := by
    simpa [State.halted] using alive
  have pc : Function.update s.pc t .ready = s.pc := by rw [← ready, Function.update_eq_self]
  induction n generalizing k with
  | zero => cases sum; rfl
  | succ n ih =>
    rw [rounds, Machine.run_append, ← ih (k := k + 1) (by omega)]
    suffices h : (machine 256 τ ν).run (idled s b t k) ([.epochEnter t, .epochExit t] ++
        if (k + 1) % 256 = 0 then [.next t 0, .next t 0] else []) = some (idled s b t (k + 1)) by
      rw [h]; rfl
    by_cases h : (k + 1) % 256 = 0
    · have tick : (k + 1) / 256 = k / 256 + 1 := by omega
      have more : (k / 256 + 1) % 256 ≠ 0 := by omega
      simp [h, Machine.run, machine, step, act, resume, idled, State.setCtx, State.goto,
        State.announce, State.halted, leave, running, inside, ready, out, current, tick, more, pc]
      omega
    · have tick : (k + 1) / 256 = k / 256 := by omega
      simp [h, Machine.run, machine, step, act, idled, State.setCtx, State.goto, State.announce,
        State.halted, leave, running, inside, ready, out, tick, pc]
      omega

/-- Thread 0 has registered and passed one critical section. -/
def oneIdle : State (Fin 3) Unit :=
  ((machine 256 _ _).run initial (joins 0 ++ [.epochExit 0])).getD initial

/-- After 65535 sections of thread 0, thread 1 has registered and passed one. -/
def twoIdle : State (Fin 3) Unit :=
  ((machine 256 _ _).run (idled oneIdle 4 0 65535) (joins 1 ++ [.epochExit 1])).getD initial

theorem oneIdle_idle : Idle oneIdle 4 0 := by
  refine ⟨?_, ?_, ?_, ?_, ?_, ?_⟩ <;> decide

theorem twoIdle_idle : Idle twoIdle 131588 1 := by
  refine ⟨?_, ?_, ?_, ?_, ?_, ?_⟩ <;> decide

/-- Thread 0 advances the epoch to 1 and stalls. Thread 1 advances it to 2, thread 2 enters,
thread 1 retires a node in epoch 2 and exits, which leaves the node in stack 2. -/
def lateCollect : List (Label (Fin 3) Unit) :=
  [.epochEnter 0, .epochExit 0] ++ List.replicate 10 (.next 0 0) ++
  [.epochEnter 1, .epochExit 1] ++ List.replicate 12 (.next 1 0) ++ joins 2 ++
  [.epochEnter 1, .ebrRetire 1 (), .next 1 0, .next 1 0, .epochExit 1, .exit 1] ++
  List.replicate 11 (.next 1 0) ++ List.replicate 2 (.next 0 0)

/-- Both threads have passed 65535 sections. -/
theorem reachable_twoIdle :
    (machine 256 (Fin 3) Unit).Reachable Free (idled twoIdle 131588 1 65535) := by
  have first : (machine 256 (Fin 3) Unit).run initial (joins 0 ++ [.epochExit 0]) =
      some oneIdle := (Option.getD_of_ne_none (Option.isSome_iff_ne_none.mp (by decide)) _).symm
  have second := oneIdle_idle.run_rounds (n := 65534) (k := 1) (m := 65535) rfl (by omega)
  rw [oneIdle_idle.idled_one] at second
  have third : (machine 256 (Fin 3) Unit).run (idled oneIdle 4 0 65535)
      (joins 1 ++ [.epochExit 1]) = some twoIdle :=
    (Option.getD_of_ne_none (Option.isSome_iff_ne_none.mp (by decide)) _).symm
  have fourth := twoIdle_idle.run_rounds (n := 65534) (k := 1) (m := 65535) rfl (by omega)
  rw [twoIdle_idle.idled_one] at fourth
  have start : (machine 256 (Fin 3) Unit).Reachable Free initial := .init ⟨_, rfl⟩
  exact (((start.along (Machine.along_of_run first)).along (Machine.along_of_run second)).along
    (Machine.along_of_run third)).along (Machine.along_of_run fourth)

theorem reachable_lateCollect {s : State (Fin 3) Unit}
    (last : (machine 256 (Fin 3) Unit).run (idled twoIdle 131588 1 65535) lateCollect = some s) :
    (machine 256 (Fin 3) Unit).Reachable Free s :=
  reachable_twoIdle.along (Machine.along_of_run last)

/-- Thread 0 takes the lists of slot 2 after the epoch has moved on, and destroys the node of
epoch 2 under the section of thread 2, which began before the node was retired. -/
theorem late_winner_unsafe : ¬ ∀ s : State (Fin 3) Unit,
    (machine 256 (Fin 3) Unit).Reachable Free s → ReclaimSafe s := by
  intro always
  obtain ⟨s, last, view⟩ := Option.map_eq_some_iff.mp (show ((machine 256 (Fin 3) Unit).run
    (idled twoIdle 131588 1 65535) lateCollect).map (fun s => (s.pc 0, (s.ctx 2).inCritical,
      s.retiredAt (), s.enteredAt 2)) = some (.destroy 0 () none, true, some 263200, 263198) by
    decide +kernel)
  simp only [Prod.mk.injEq] at view
  obtain ⟨pc, critical, retired, entered⟩ := view
  obtain ⟨r, hr, before⟩ := always s (reachable_lateCollect last) 0 0 () none pc 2 critical
  rw [retired] at hr
  cases hr
  rw [entered] at before
  omega

end DBx1000.Epoch
