import Mathlib.Algebra.Order.Ring.Nat
import DBx1000.Epoch.Custody
import DBx1000.Epoch.Safety
import Mathlib.Data.Fintype.Basic

/-!
# Waiting for the reclamation of all retired nodes

`ebr_sync` goes through critical sections until the epoch has advanced by three. It is modelled
on top of the machine of `Epoch.Model`: between its own loads of `g_epoch` a thread in
`ebr_sync` takes the steps of `epoch_enter` and `epoch_exit`.

## Main result

`ebr_sync_drains`: when `ebr_sync` returns, all nodes that were retired before its call have
been destroyed, if no other thread had a pending node at the call, whoever advanced the epoch
meanwhile found the pending list of the caller for that slot empty, and no other thread is
still collecting at the return.

## Proof strategy

In the window of three epochs each slot is collected once. Until the winner of an epoch has
taken its lists, the old nodes may be in the stack of its slot; afterwards they are in neither
the stack nor the pending list of the caller, and nobody can put an old node back.
-/

namespace DBx1000.Epoch

open Transition LinkedList

variable {τ ν : Type*}

/-! ### The function -/

/-- Where a thread is in `ebr_sync`: before the load of `g_epoch`, at the condition of the loop
or in the rest of `epoch_exit`, before `epoch_enter`, before `epoch_exit`. -/
inductive SyncPc
  | idle
  | load
  | loop (target : Nat)
  | enter (target : Nat)
  | exit (target : Nat)
  | returned
  deriving DecidableEq

def SyncPc.active : SyncPc → Bool
  | .idle | .returned => false
  | _ => true

def SyncPc.target : SyncPc → Option Nat
  | .loop target | .enter target | .exit target => some target
  | _ => none

/-- `began` is a ghost: the time of the last call of `ebr_sync`. -/
structure SyncState (τ ν : Type*) where
  base : State τ ν
  sync : τ → SyncPc
  began : τ → Nat

inductive SyncLabel (τ ν : Type*)
  /-- A step of a thread that is not in `ebr_sync`. -/
  | base (a : Label τ ν)
  /-- The call of `ebr_sync` by a registered thread outside critical sections. -/
  | ebrSync (t : τ)
  /-- The next step of a thread in `ebr_sync`. -/
  | next (t : τ) (env : Nat)

/-- A node that was retired before time `b`. -/
def State.old (s : State τ ν) (b : Nat) (n : ν) : Prop := ∃ r, s.retiredAt n = some r ∧ r < b

variable [DecidableEq τ] [DecidableEq ν]

def SyncState.goto (s : SyncState τ ν) (t : τ) (p : SyncPc) : SyncState τ ν :=
  { s with sync := Function.update s.sync t p }

/-- A step of the functions below `ebr_sync`. -/
def SyncState.perform (threshold : Nat) (s : SyncState τ ν) (a : Label τ ν) :
    Option (SyncState τ ν) :=
  (step threshold s.base a).map fun base => { s with base := base }

def syncStep (threshold : Nat) (s : SyncState τ ν) : SyncLabel τ ν → Option (SyncState τ ν)
  | .base a => if (s.sync a.thread).active then none else s.perform threshold a
  | .ebrSync t =>
    if s.base.halted ∨ (s.sync t).active then none
    else
      match s.base.pc t, (s.base.ctx t).inCritical with
      | .ready, false =>
        some { s.goto t .load with began := Function.update s.began t s.base.clock }
      | _, _ => none
  | .next t env =>
    if s.base.halted then none
    else
      match s.sync t with
      | .idle | .returned => none
      | .load => some (s.goto t (.loop ((s.base.epoch + ebrEpochCount) % 2 ^ 32)))
      | .loop target =>
        match s.base.pc t with
        | .ready =>
          if signed s.base.epoch < signed target then some (s.goto t (.enter target))
          else some (s.goto t .returned)
        | _ => s.perform threshold (.next t env)
      | .enter target => (s.perform threshold (.epochEnter t)).map (·.goto t (.exit target))
      | .exit target => (s.perform threshold (.epochExit t)).map (·.goto t (.loop target))

def syncMachine (threshold : Nat) (τ ν : Type*) [DecidableEq τ] [DecidableEq ν] :
    Machine (SyncState τ ν) (SyncLabel τ ν) where
  init s := (machine threshold τ ν).init s.base ∧ ∀ t, s.sync t = .idle ∧ s.began t = 0
  step := syncStep threshold

/-- What `ebr_sync` promises: of a thread that has returned from it, all nodes that had been
retired before its call have been destroyed. -/
def SyncState.Drained (s : SyncState τ ν) : Prop :=
  ∀ t, s.sync t = .returned → ∀ n, s.base.old (s.began t) n → s.base.destroyed n = true

/-! ### When it keeps its promise -/

/-- No other thread has pending nodes, or carries a node. -/
def State.Gathered (s : State τ ν) (t : τ) : Prop :=
  ∀ u, u ≠ t → (s.pc u).carries = none ∧
    ∀ e < ebrEpochCount, (s.pc u).pending (s.ctx u).pending e = none

/-- A thread between the CAS of `try_gc` and its end. -/
def Pc.busy : Pc τ ν → Bool
  | .gcPop _ | .gcTail _ _ _ _ | .gcJoin _ _ _ _ | .reclaim _ _ | .destroy _ _ _ => true
  | _ => false

/-- If the thread is about to win an epoch, the threads in `ebr_sync` have no pending nodes in
the slot that it will collect, and the epoch does not overflow. -/
def SyncState.Fair (s : SyncState τ ν) (u : τ) : Prop :=
  ∀ cur ∈ (s.base.pc u).advancing, s.base.epoch = cur → cur + 1 < 2 ^ 31 ∧
    ∀ t, t ≠ u → (s.sync t).active = true → (s.base.ctx t).pending (rslot cur) = none

/-- The steps with which `ebr_sync` keeps its promise: no other thread has pending nodes at the
call, all winners are fair, and no other thread is collecting at the return. -/
def Covered (s : SyncState τ ν) : SyncLabel τ ν → Prop
  | .base a => s.Fair a.thread
  | .ebrSync t => s.base.Gathered t
  | .next t _ => s.Fair t ∧
    match s.sync t with
    | .load => s.base.epoch + ebrEpochCount < 2 ^ 31
    | .loop target => s.base.pc t = .ready → target ≤ s.base.epoch →
        ∀ u, u ≠ t → (s.base.pc u).busy = false
    | _ => True

/-! ### What a step does to a thread -/

/-- The places that a thread in `ebr_sync` comes to. -/
def Pc.calm : Pc τ ν → Bool
  | .ready | .refresh | .refreshStore _ | .gcEpoch | .gcCount _ | .gcScan _ _ _ |
    .gcCritical _ _ _ _ | .gcLocal _ _ _ _ | .gcCas _ => true
  | p => p.busy

/-- A step as far as epochs and retired nodes are concerned. -/
inductive Effect (s : State τ ν) (t : τ) (s' : State τ ν) : Prop
  | quiet (p : Pc τ ν) (pc : s'.pc = Function.update s.pc t p) (epoch : s'.epoch = s.epoch)
      (gone : s'.retiredAt = s.retiredAt)
      (carries : p.carries = none ∨ p.carries = (s.pc t).carries)
      (calm : (s.pc t).calm = true → p.calm = true)
      (before : ∀ cur, s.pc t ≠ .gcPop cur)
  | advance (pc : s'.pc = Function.update s.pc t (.gcPop s.epoch))
      (epoch : s'.epoch = (s.epoch + 1) % 2 ^ 32) (gone : s'.retiredAt = s.retiredAt)
      (before : s.pc t = .gcCas s.epoch)
  | collect (cur : Nat) (before : s.pc t = .gcPop cur) (epoch : s'.epoch = s.epoch)
      (gone : s'.retiredAt = s.retiredAt)
      (pc : ∃ p, s'.pc = Function.update s.pc t p ∧ p.carries = none ∧ p.calm = true)
      (stack : s'.retired (rslot cur) = none) (slot : s'.head (.slot t (rslot cur)) = none)
  | retire (ptr : ν) (cur : Nat) (pc : s'.pc = Function.update s.pc t (.retireLink ptr cur))
      (epoch : s'.epoch = s.epoch) (new : s.retiredAt ptr = none)
      (gone : s'.retiredAt = Function.update s.retiredAt ptr (some s.clock))
      (before : s.pc t = .ready)
  | transfer (e : Nat) (node : ν) (next : Option ν) (before : s.pc t = .drain e (some node))
      (pc : s'.pc = Function.update s.pc t (.stackHead e node next)) (epoch : s'.epoch = s.epoch)
      (gone : s'.retiredAt = s.retiredAt)
  | exit (pc : s'.pc = Function.update s.pc t .pushIndex) (epoch : s'.epoch = s.epoch)
      (gone : s'.retiredAt = s.retiredAt) (before : s.pc t = .ready)

variable {threshold : Nat} {s s' : State τ ν} {t : τ}

theorem resume_effect {env : Nat} (h : resume threshold s t env = some s') : Effect s t s' := by
  unfold resume at h
  cases hp : s.pc t with
  | fresh | ready | dead => simp [hp] at h
  -- these steps touch none of the lists of retired nodes
  | popNext _ | popIndex _ | popHead | popCas _ _ | pushLink _ | gcEpoch | gcCount _ |
      pushIndex | gcScan _ _ _ | gcCritical _ _ _ _ | gcLocal _ _ _ _ | publish _ |
      enter | retirePush _ _ | pushCas _ | refreshStore _ |
      refresh | retireLink _ _ | gcTail _ _ _ _ | gcJoin _ _ _ _ | destroy _ _ _ |
      pushHead | stackHead _ _ _ | stackLink _ _ _ _ | stackCas _ _ _ _ =>
    simp only [hp] at h
    repeat' split at h
    all_goals cases h
    all_goals
      refine .quiet _ rfl rfl rfl ?_ ?_ (by rw [hp]; rintro _ ⟨⟩)
      · rw [hp]
        first | exact .inl rfl | exact .inr rfl
      · rw [hp]
        first | exact fun _ => rfl | rintro ⟨⟩
  | fetchAdd =>
    simp only [hp] at h
    split at h <;> cases h
    · exact .quiet _ rfl rfl rfl (.inl rfl) (by rw [hp]; rintro ⟨⟩) (by rw [hp]; rintro _ ⟨⟩)
    · exact .quiet _ (Function.update_eq_self t s.pc).symm rfl rfl (.inr rfl) id
        (by rw [hp]; rintro _ ⟨⟩)
  -- the epoch is won or not
  | gcCas cur =>
    simp only [hp] at h
    split at h
    · next same =>
      cases h
      subst same
      exact .advance rfl rfl rfl hp
    · cases h
      exact .quiet _ rfl rfl rfl (.inl rfl) (fun _ => rfl) (by rw [hp]; rintro _ ⟨⟩)
  -- the stack of the slot is taken and joined to the list of the thread
  | gcPop cur =>
    simp only [hp] at h
    cases h
    refine .collect cur hp rfl rfl ⟨_, rfl, ?_⟩ (by simp only [Function.update_self]) ?_
    · cases s.retired (rslot cur) <;> cases (s.ctx t).pending (rslot cur) <;> exact ⟨rfl, rfl⟩
    · simp only [State.head, State.goto, State.setCtx, Ctx.setPending, Function.update_self,
        (Placed.joinLists_facts cur _ _).2.2]
  | reclaim cur list =>
    simp only [hp] at h
    cases list <;> cases h <;>
      exact .quiet _ rfl rfl rfl (.inl rfl) (fun _ => rfl) (by rw [hp]; rintro _ ⟨⟩)
  | drain e node =>
    simp only [hp] at h
    cases node with
    | none =>
      simp only [State.drained] at h
      split at h <;> cases h <;>
        exact .quiet _ rfl rfl rfl (.inl rfl) (by rw [hp]; rintro ⟨⟩) (by rw [hp]; rintro _ ⟨⟩)
    | some node =>
      cases h
      exact .transfer e node _ hp rfl rfl rfl

theorem act_effect {a : Label τ ν} (h : act threshold s a = some s') : Effect s a.thread s' := by
  cases a with
  | register t =>
    simp only [act] at h
    split at h <;> cases h
    next hp =>
      exact .quiet _ rfl rfl rfl (.inl rfl) (by rw [Label.thread, hp]; rintro ⟨⟩)
        (by rw [Label.thread, hp]; rintro _ ⟨⟩)
  | epochEnter t =>
    simp only [act] at h
    split at h <;> cases h
    next hp _ =>
      refine .quiet _ ?_ rfl rfl (.inr rfl) id (by rw [Label.thread, hp]; rintro _ ⟨⟩)
      exact (Function.update_eq_self t s.pc).symm
  | epochExit t =>
    simp only [act] at h
    split at h <;> cases h
    next hp _ =>
      refine .quiet _ rfl rfl rfl ?_ ?_ (by rw [Label.thread, hp]; rintro _ ⟨⟩)
      · split <;> exact .inl rfl
      · split <;> exact fun _ => rfl
  | ebrRetire t ptr =>
    simp only [act] at h
    split at h <;> cases h
    next hp new => exact .retire ptr _ rfl rfl new rfl hp
  | exit t =>
    simp only [act] at h
    split at h <;> cases h
    next hp _ => exact .exit rfl rfl rfl hp
  | next t env => exact resume_effect h

/-- `epoch_enter`, `epoch_exit` and what they call keep a thread in its place. -/
theorem calm_of_act {a : Label τ ν} (h : act threshold s a = some s') (calm : (s.pc t).calm = true)
    (mine : a = .epochEnter t ∨ a = .epochExit t ∨ ∃ env, a = .next t env) :
    (s'.pc t).calm = true := by
  rcases mine with rfl | rfl | ⟨env, rfl⟩
  · simp only [act] at h
    split at h <;> cases h
    exact calm
  · simp only [act] at h
    split at h <;> cases h
    simp only [leave, State.goto, Function.update_self]
    split <;> rfl
  · -- a thread between two calls takes no step of its own
    have running (p : Pc τ ν) (hp : s.pc t = p) : p ≠ .ready := by
      rintro rfl
      simp [act, resume, hp] at h
    cases resume_effect (s := s) h with
    | quiet p pc _ _ _ kept _ =>
      rw [pc, Function.update_self]
      exact kept calm
    | advance pc _ _ _ =>
      rw [pc, Function.update_self]
      rfl
    | collect _ _ _ _ pc _ _ =>
      obtain ⟨p, pc, -, hp⟩ := pc
      rw [pc, Function.update_self]
      exact hp
    | retire _ _ _ _ _ _ before => exact absurd rfl (running _ before)
    | transfer _ _ _ before _ _ _ =>
      rw [before] at calm
      cases calm
    | exit _ _ _ before => exact absurd rfl (running _ before)

namespace Effect

omit [DecidableEq ν] in
theorem pc_of_ne [DecidableEq ν] (e : Effect s t s') {u : τ} (other : u ≠ t) :
    s'.pc u = s.pc u := by
  cases e with
  | quiet _ pc _ _ _ _ _ | advance pc _ _ _ | retire _ _ pc _ _ _ _ | transfer _ _ _ _ pc _ _
  | exit pc _ _ _ => rw [pc, Function.update_of_ne other]
  | collect _ _ _ _ pc _ _ =>
    obtain ⟨p, pc, -⟩ := pc
    rw [pc, Function.update_of_ne other]

/-- A step makes no node older. -/
theorem old (e : Effect s t s') {b : Nat} (past : b ≤ s.clock) {n : ν} (h : s'.old b n) :
    s.old b n := by
  obtain ⟨r, hr, before⟩ := h
  cases e with
  | quiet _ _ _ gone _ _ _ | advance _ _ gone _ | collect _ _ _ gone _ _ _
  | transfer _ _ _ _ _ _ gone | exit _ _ gone _ => exact ⟨r, gone ▸ hr, before⟩
  | retire ptr _ _ _ _ gone _ =>
    rw [gone, Function.update_apply] at hr
    split at hr
    · cases hr
      omega
    · exact ⟨r, hr, before⟩

end Effect

/-! ### The window of three epochs -/

/-- The winner of epoch `cur` has not taken its lists, and there is nothing old in the pending
list of `t` that it will not take. -/
def State.Winning (s : State τ ν) (lists : Place τ → List ν) (t : τ) (b cur : Nat) : Prop :=
  ∃ u, s.pc u = .gcPop cur ∧ (u = t ∨ ∀ n ∈ lists (.slot t (rslot cur)), ¬ s.old b n)

/-- Nothing old is left in the lists of the slot that the winner of epoch `cur` collects. -/
def State.Collected (s : State τ ν) (lists : Place τ → List ν) (t : τ) (b cur : Nat) : Prop :=
  ∀ n, n ∈ lists (.stack (rslot cur)) ∨ n ∈ lists (.slot t (rslot cur)) → ¬ s.old b n

/-- What holds while `t` is in `ebr_sync`, called at time `b`. -/
structure Tracked (s : State τ ν) (lists : Place τ → List ν) (t : τ) (b : Nat)
    (target : Option Nat) : Prop where
  calm : (s.pc t).calm = true
  slots : ∀ u, u ≠ t → ∀ e, ∀ n ∈ lists (.slot u e), ¬ s.old b n
  hands : ∀ u n, (s.pc u).carries = some n → ¬ s.old b n
  window : ∀ last, target = some last → ebrEpochCount ≤ last ∧ last < 2 ^ 31 ∧
    ∀ cur, last ≤ cur + ebrEpochCount → cur < last → cur < s.epoch →
      s.Winning lists t b cur ∨ s.Collected lists t b cur

section Tracking

variable {lists lists' : Place τ → List ν} {v : τ} {b : Nat} {target : Option Nat}

omit [DecidableEq τ] [DecidableEq ν] in
theorem carries_of_calm {p : Pc τ ν} (h : p.calm = true) : p.carries = none ∧ p.draining = none := by
  cases p <;> first | exact ⟨rfl, rfl⟩ | cases h

omit [DecidableEq τ] [DecidableEq ν] in
/-- A list whose head is NULL is empty. -/
theorem Kept.empty (hi : Kept s lists) {p : Place τ} (h : s.head p = none) : lists p = [] := by
  have chain := hi.placed.apart.chain p
  rw [h] at chain
  exact chain.eq_nil

/-- A step of a thread keeps track of the old nodes. -/
theorem Tracked.step (hi : Tracked s lists t b target) (kept : Kept s lists)
    (kept' : Kept s' lists') (e : Effect s v s') (past : b ≤ s.clock)
    (origin : ∀ p n, n ∈ lists' p →
      n ∈ lists p ∨ (s.pc v).carries = some n ∨ p = .taken v ∨ p = .behind v)
    (calm : (s'.pc t).calm = true)
    (fair : v ≠ t → s.pc v = .gcCas s.epoch → (s.ctx t).pending (rslot s.epoch) = none) :
    Tracked s' lists' t b target := by
  -- no node becomes old after the call began
  have older {n : ν} (h : s'.old b n) : s.old b n := e.old past h
  have fresh {p : Place τ} {n : ν} (h : n ∈ lists' p) (public_ : ∀ u, p ≠ .taken u ∧ p ≠ .behind u)
      (before : n ∈ lists p → ¬ s.old b n) : ¬ s'.old b n := by
    intro old
    rcases origin p n h with h | h | h | h
    · exact before h (older old)
    · exact hi.hands v n h (older old)
    · exact (public_ v).1 h
    · exact (public_ v).2 h
  constructor
  case calm => exact calm
  case slots =>
    intro u hu slot n hn
    exact fresh hn (by simp) (hi.slots u hu slot n)
  -- a node comes into the hands with its retirement or from a slot, and neither has an old one
  case hands =>
    intro u n hn old
    by_cases other : u = v
    · subst other
      cases e with
      | quiet p pc _ _ carries _ _ =>
        rw [pc, Function.update_self] at hn
        rcases carries with none | same
        · rw [none] at hn
          cases hn
        · exact hi.hands u n (same ▸ hn) (older old)
      | advance pc _ _ _ | exit pc _ _ _ =>
        rw [pc, Function.update_self] at hn
        cases hn
      | collect _ _ _ _ pc _ _ =>
        obtain ⟨p, pc, none, -⟩ := pc
        rw [pc, Function.update_self, none] at hn
        cases hn
      | retire ptr _ pc _ new gone _ =>
        rw [pc, Function.update_self] at hn
        cases hn
        obtain ⟨r, hr, before⟩ := older old
        rw [new] at hr
        cases hr
      | transfer slot node next before pc _ _ =>
        rw [pc, Function.update_self] at hn
        cases hn
        have ne : u ≠ t := by
          rintro rfl
          have quiet := hi.calm
          rw [before] at quiet
          cases quiet
        have head : s.head (.slot u slot) = some n := by
          simp only [State.head, before, Pc.pending, if_pos]
        have chain := kept.placed.apart.chain (.slot u slot)
        rw [head] at chain
        obtain ⟨rest, first, -⟩ := chain.uncons
        exact hi.slots u ne slot n (first ▸ List.mem_cons_self) (older old)
    · rw [e.pc_of_ne other] at hn
      exact hi.hands u n hn (older old)
  -- an epoch of the window has a winner at work, or its slot has been collected
  case window =>
    intro last hlast
    obtain ⟨long, room, window⟩ := hi.window last hlast
    refine ⟨long, room, fun cur low high now => ?_⟩
    by_cases already : cur < s.epoch
    · rcases window cur low high already with ⟨u, winner, clear⟩ | collected
      · by_cases mine : u = v
        · subst mine
          cases e with
          | quiet _ _ _ _ _ _ before => exact absurd winner (before cur)
          | advance _ _ _ before | retire _ _ _ _ _ _ before | transfer _ _ _ before _ _ _
          | exit _ _ _ before =>
            rw [before] at winner
            cases winner
          -- the winner has taken the stack
          | collect cur' before _ _ _ stack slot =>
            rw [before] at winner
            cases winner
            right
            intro n hn
            rcases hn with hn | hn
            · rw [kept'.empty (p := .stack (rslot cur)) stack] at hn
              cases hn
            · rcases clear with rfl | clear
              · rw [kept'.empty slot] at hn
                cases hn
              · exact fresh hn (by simp) (clear n)
        · left
          refine ⟨u, (e.pc_of_ne mine).trans winner, ?_⟩
          rcases clear with same | clear
          · exact .inl same
          · exact .inr fun n hn => fresh hn (by simp) (clear n)
      · right
        intro n hn
        rcases hn with hn | hn
        · exact fresh hn (by simp) fun h => collected n (.inl h)
        · exact fresh hn (by simp) fun h => collected n (.inr h)
    · cases e with
      | quiet _ _ epoch _ _ _ _ | collect _ _ epoch _ _ _ _ | retire _ _ _ epoch _ _ _
      | transfer _ _ _ _ _ epoch _ | exit _ epoch _ _ => omega
      | advance pc epoch _ before =>
        -- the epoch has just been won
        obtain rfl : cur = s.epoch := by
          have moved := Nat.mod_le (s.epoch + 1) (2 ^ 32)
          omega
        left
        refine ⟨v, by rw [pc, Function.update_self], ?_⟩
        by_cases mine : v = t
        · exact .inl mine
        · right
          intro n hn
          -- a calm thread does not drain, and by the condition its slot is empty
          have still : (s.pc t).draining ≠ some (rslot s.epoch) := by
            rw [(carries_of_calm hi.calm).2]
            rintro ⟨⟩
          have none : lists (.slot t (rslot s.epoch)) = [] := by
            apply kept.empty
            rw [State.head, pending_of_not_draining still]
            exact fair mine before
          refine fresh hn (by simp) fun h => ?_
          rw [none] at h
          cases h

end Tracking

/-! ### Runs -/

theorem Event.clock (e : Event s t s') : s'.clock = s.clock := by
  cases e with
  | walk _ _ _ _ times _ _ _ | announce _ _ times | advance _ _ _ _ times
  | retire _ _ _ times => exact congrArg (·.2.1) times

theorem clock_of_step (within : Within s) {a : Label τ ν}
    (h : step threshold s a = some s') : s'.clock = s.clock + 1 := by
  simp only [step] at h
  split at h
  · cases h
  · obtain ⟨u, hu, rfl⟩ := Option.map_eq_some_iff.mp h
    exact congrArg (· + 1) (within.act hu).clock

theorem step_effect {a : Label τ ν} (h : step threshold s a = some s') :
    Effect s a.thread s' := by
  simp only [step] at h
  split at h
  · cases h
  · obtain ⟨u, hu, rfl⟩ := Option.map_eq_some_iff.mp h
    -- the tick of the clock is not seen
    cases act_effect hu with
    | quiet p pc epoch gone carries calm before =>
      exact .quiet p pc epoch gone carries calm before
    | advance pc epoch gone before => exact .advance pc epoch gone before
    | collect cur before epoch gone pc stack slot =>
      exact .collect cur before epoch gone pc stack slot
    | retire ptr cur pc epoch new gone before => exact .retire ptr cur pc epoch new gone before
    | transfer e node next before pc epoch gone => exact .transfer e node next before pc epoch gone
    | exit pc epoch gone before => exact .exit pc epoch gone before

theorem calm_of_step {a : Label τ ν} (h : step threshold s a = some s')
    (calm : (s.pc t).calm = true)
    (mine : a = .epochEnter t ∨ a = .epochExit t ∨ ∃ env, a = .next t env) :
    (s'.pc t).calm = true := by
  simp only [step] at h
  split at h
  · cases h
  · obtain ⟨u, hu, rfl⟩ := Option.map_eq_some_iff.mp h
    have kept := calm_of_act hu calm mine
    exact kept

omit [DecidableEq τ] [DecidableEq ν] in
/-- Before the epoch overflows, `ebr_retire` finds its slot. -/
theorem Sections.inRange (hi : Sections s) (a : Label τ ν) : InRange s a := by
  cases a with
  | ebrRetire t ptr =>
    left
    rw [signed_of_lt hi.bounded]
    exact Int.natCast_nonneg _
  | _ => trivial

/-- What runs with covered calls of `ebr_sync` keep. -/
structure SyncInv (s : SyncState τ ν) (lists : Place τ → List ν) : Prop where
  kept : Kept s.base lists
  sections : Sections s.base
  past : ∀ t, s.began t ≤ s.base.clock
  tracked : ∀ t, (s.sync t).active = true →
    Tracked s.base lists t (s.began t) (s.sync t).target
  drained : s.Drained

namespace SyncInv

variable {s s' : SyncState τ ν} {lists : Place τ → List ν}

omit [DecidableEq ν] in
/-- A thread goes on inside `ebr_sync`, or returns from it. -/
theorem goto [DecidableEq ν] (hi : SyncInv s lists) (p : SyncPc)
    (tracked : p.active = true → Tracked s.base lists t (s.began t) p.target)
    (drained : p = .returned → ∀ n, s.base.old (s.began t) n → s.base.destroyed n = true) :
    SyncInv (s.goto t p) lists where
  kept := hi.kept
  sections := hi.sections
  past := hi.past
  tracked u h := by
    simp only [SyncState.goto, Function.update_apply] at h ⊢
    split at h
    · next e =>
      subst e
      rw [if_pos rfl]
      exact tracked h
    · next ne =>
      rw [if_neg ne]
      exact hi.tracked u h
  drained u h := by
    simp only [SyncState.goto, Function.update_apply] at h
    split at h
    · next e =>
      subst e
      exact drained h
    · exact hi.drained u h

/-- A step below `ebr_sync`. -/
theorem perform (hi : SyncInv s lists) {a : Label τ ν} (fair : s.Fair a.thread)
    (mine : (s.sync a.thread).active = true → a = .epochEnter a.thread ∨
      a = .epochExit a.thread ∨ ∃ env, a = .next a.thread env)
    (h : s.perform threshold a = some s') :
    (∃ lists', SyncInv s' lists') ∧ s'.sync = s.sync ∧ s'.began = s.began := by
  obtain ⟨base, hb, rfl⟩ := Option.map_eq_some_iff.mp h
  obtain ⟨lists', kept', origin⟩ := hi.kept.step (hi.sections.inRange a) hb
  have e := step_effect hb
  -- the clock only goes on
  have later := clock_of_step hi.sections.place hb
  have room (here : s.base.pc a.thread = .gcCas s.base.epoch) : s.base.epoch + 1 < 2 ^ 31 :=
    (fair s.base.epoch (by rw [here]; rfl) rfl).1
  refine ⟨⟨lists', kept', hi.sections.step hb room, fun t => ?_, fun t active => ?_, fun t h n old => ?_⟩,
    rfl, rfl⟩
  · have before := hi.past t
    change s.began t ≤ base.clock
    omega
  · have track := hi.tracked t active
    refine track.step hi.kept kept' e (hi.past t) origin ?_ ?_
    · by_cases same : t = a.thread
      · subst same
        exact calm_of_step hb track.calm (mine active)
      · rw [e.pc_of_ne same]
        exact track.calm
    · intro ne winner
      refine (fair s.base.epoch ?_ rfl).2 t (fun e => ne e.symm) active
      rw [winner]
      rfl
  · exact step_destroyed hb (.inl (hi.drained t h n (e.old (hi.past t) old)))

omit [DecidableEq ν] in
/-- The call. -/
theorem call (hi : SyncInv s lists) (ready : s.base.pc t = .ready)
    (gathered : s.base.Gathered t) :
    SyncInv { s.goto t .load with began := Function.update s.began t s.base.clock } lists where
  kept := hi.kept
  sections := hi.sections
  past u := by
    change Function.update s.began t s.base.clock u ≤ s.base.clock
    rw [Function.update_apply]
    split
    · exact Nat.le_refl _
    · exact hi.past u
  tracked u h := by
    simp only [SyncState.goto, Function.update_apply] at h ⊢
    by_cases e : u = t
    · subst e
      rw [if_pos rfl, if_pos rfl]
      refine ⟨by rw [ready]; rfl, fun v hv slot n hn => ?_, fun v n hn => ?_, fun last h => ?_⟩
      · -- the slots of the others are empty
        obtain ⟨-, none⟩ := gathered v hv
        have empty : s.base.head (.slot v slot) = Option.none := by
          by_cases few : slot < ebrEpochCount
          · exact none slot few
          · rw [State.head, pending_of_not_draining]
            · exact hi.kept.emptied.pending v slot (.inr (by omega))
            · exact fun h => few (hi.kept.emptied.draining v slot h)
        rw [hi.kept.empty empty] at hn
        cases hn
      · by_cases same : v = u
        · rw [same, ready] at hn
          cases hn
        · rw [(gathered v same).1] at hn
          cases hn
      · cases h
    · rw [if_neg e] at h ⊢
      rw [if_neg e]
      exact hi.tracked u h
  drained u h := by
    simp only [SyncState.goto, Function.update_apply] at h ⊢
    by_cases e : u = t
    · rw [if_pos e] at h
      cases h
    · rw [if_neg e] at h ⊢
      exact hi.drained u h

omit [DecidableEq τ] [DecidableEq ν] in
/-- Each slot is collected in one epoch of the window. -/
theorem exists_epoch_of_slot {last slot : Nat} (long : ebrEpochCount ≤ last) (room : last < 2 ^ 31)
    (few : slot < ebrEpochCount) :
    ∃ cur, last ≤ cur + ebrEpochCount ∧ cur < last ∧ rslot cur = slot := by
  unfold ebrEpochCount at *
  refine ⟨last - 3 + (slot + 1 + 2 * (last - 3)) % 3, by omega, by omega, ?_⟩
  rw [rslot_eq (by omega)]
  unfold ebrEpochCount
  omega

omit [DecidableEq τ] [DecidableEq ν] in
theorem idle_of_not_busy {p : Pc τ ν} (h : p.busy = false) :
    p.taken = none ∧ p.behind = none ∧ p.hand = p.carries := by
  cases p <;> first | exact ⟨rfl, rfl, rfl⟩ | cases h

omit [DecidableEq ν] in
/-- At the return everything old has been destroyed. -/
theorem drained_at_return (hi : SyncInv s lists) {last : Nat} (loop : s.sync t = .loop last)
    (ready : s.base.pc t = .ready) (won : last ≤ s.base.epoch)
    (others : ∀ u, u ≠ t → (s.base.pc u).busy = false) (n : ν)
    (old : s.base.old (s.began t) n) : s.base.destroyed n = true := by
  have track := hi.tracked t (by rw [loop]; rfl)
  obtain ⟨long, room, window⟩ := track.window last (by rw [loop]; rfl)
  have quiet (u : τ) : (s.base.pc u).busy = false := by
    by_cases e : u = t
    · rw [e, ready]
      rfl
    · exact others u e
  -- all three slots of the window have been collected, and no winner is at work
  have collected (slot : Nat) (few : slot < ebrEpochCount)
      (here : n ∈ lists (.stack slot) ∨ n ∈ lists (.slot t slot)) : False := by
    obtain ⟨cur, low, high, rfl⟩ := exists_epoch_of_slot long room few
    rcases window cur low high (by omega) with ⟨u, winner, -⟩ | collected
    · have busy := quiet u
      rw [winner] at busy
      cases busy
    · exact collected n here old
  -- a node that is not destroyed is in a list or in the hands of a thread
  by_contra alive
  rw [Bool.not_eq_true] at alive
  obtain ⟨r, hr, -⟩ := id old
  rcases (hi.kept.whole.here n).mpr ⟨by rw [hr]; nofun, alive⟩ with ⟨p, mem⟩ | ⟨u, held⟩
  · cases p with
    | stack slot =>
      by_cases few : slot < ebrEpochCount
      · exact collected slot few (.inl mem)
      · have none : s.base.head (.stack slot) = none := hi.kept.emptied.global slot (by omega)
        rw [hi.kept.empty none] at mem
        cases mem
    | slot u slot =>
      by_cases e : u = t
      · subst e
        by_cases few : slot < ebrEpochCount
        · exact collected slot few (.inr mem)
        · have none : s.base.head (.slot u slot) = none := by
            rw [State.head, ready]
            exact hi.kept.emptied.pending u slot (.inr (by omega))
          rw [hi.kept.empty none] at mem
          cases mem
      · exact track.slots u e slot n mem old
    | taken u =>
      rw [hi.kept.empty (p := .taken u) (idle_of_not_busy (quiet u)).1] at mem
      cases mem
    | behind u =>
      rw [hi.kept.empty (p := .behind u) (idle_of_not_busy (quiet u)).2.1] at mem
      cases mem
  · rw [State.hand, (idle_of_not_busy (quiet u)).2.2] at held
    exact track.hands u n held old

theorem step (hi : SyncInv s lists) {a : SyncLabel τ ν} (covered : Covered s a)
    (h : syncStep threshold s a = some s') : ∃ lists', SyncInv s' lists' := by
  cases a with
  | base a =>
    simp only [syncStep] at h
    split at h
    · cases h
    · next free => exact (hi.perform covered (fun active => absurd active free) h).1
  | ebrSync t =>
    simp only [syncStep] at h
    split at h
    · cases h
    · split at h <;> cases h
      next ready _ => exact ⟨lists, hi.call ready covered⟩
  | next t env =>
    obtain ⟨fair, covered⟩ := covered
    simp only [syncStep] at h
    split at h
    · cases h
    · cases hs : s.sync t with
      | idle | returned => simp [hs] at h
      | load =>
        simp only [hs] at h covered
        cases h
        have track := hi.tracked t (by rw [hs]; rfl)
        refine ⟨lists, hi.goto _ (fun _ => ?_) nofun⟩
        refine ⟨track.calm, track.slots, track.hands, fun last hlast => ?_⟩
        -- no epoch of the window has been won
        rw [Nat.mod_eq_of_lt (Nat.lt_trans covered (by decide))] at hlast
        cases hlast
        refine ⟨Nat.le_add_left _ _, covered, fun cur low _ now => ?_⟩
        omega
      | loop target =>
        simp only [hs] at h covered
        have track := hi.tracked t (by rw [hs]; rfl)
        split at h
        · next ready =>
          split at h <;> cases h
          · refine ⟨lists, hi.goto _ (fun _ => ?_) nofun⟩
            rw [hs] at track
            exact track
          · next past =>
            -- the three epochs have passed
            have reached : target ≤ s.base.epoch := by
              obtain ⟨-, room, -⟩ := track.window target (by rw [hs]; rfl)
              rw [signed_of_lt room, signed_of_lt hi.sections.bounded] at past
              omega
            refine ⟨lists, hi.goto _ nofun fun _ => ?_⟩
            exact hi.drained_at_return hs ready reached (covered ready reached)
        · exact (hi.perform (a := .next t env) fair (fun _ => .inr (.inr ⟨env, rfl⟩)) h).1
      | enter target =>
        simp only [hs] at h
        obtain ⟨u, hu, rfl⟩ := Option.map_eq_some_iff.mp h
        obtain ⟨⟨lists', hi'⟩, sync, -⟩ :=
          hi.perform (a := .epochEnter t) fair (fun _ => .inl rfl) hu
        have track := hi'.tracked t (by rw [sync, hs]; rfl)
        rw [sync, hs] at track
        exact ⟨lists', hi'.goto _ (fun _ => track) nofun⟩
      | exit target =>
        simp only [hs] at h
        obtain ⟨u, hu, rfl⟩ := Option.map_eq_some_iff.mp h
        obtain ⟨⟨lists', hi'⟩, sync, -⟩ :=
          hi.perform (a := .epochExit t) fair (fun _ => .inr (.inl rfl)) hu
        have track := hi'.tracked t (by rw [sync, hs]; rfl)
        rw [sync, hs] at track
        exact ⟨lists', hi'.goto _ (fun _ => track) nofun⟩

end SyncInv

/-- **`ebr_sync` drains**. In every run in which all calls of `ebr_sync` are covered, a thread
that has returned from `ebr_sync` finds all nodes destroyed that any thread had retired before
the call. -/
theorem ebr_sync_drains {s : SyncState τ ν}
    (reached : (syncMachine threshold τ ν).Reachable Covered s) : s.Drained := by
  have inv : ∃ lists, SyncInv s lists := by
    refine reached.invariant (I := fun s => ∃ lists, SyncInv s lists) ?_ ?_
    · rintro s ⟨⟨next, base⟩, idle⟩
      refine ⟨fun _ => [], ?_, ?_, fun t => ?_, fun t active => ?_, fun t returned => ?_⟩
      · rw [base]
        exact Kept.init next
      · rw [base]
        exact Sections.init next
      · rw [(idle t).2]
        exact Nat.zero_le _
      · rw [(idle t).1] at active
        cases active
      · rw [(idle t).1] at returned
        cases returned
    · rintro s a s' ⟨lists, hi⟩ covered h
      exact hi.step covered h
  obtain ⟨lists, hi⟩ := inv
  exact hi.drained

instance [Fintype τ] (s : SyncState τ ν) (u : τ) : Decidable (s.Fair u) :=
  inferInstanceAs (Decidable (∀ cur ∈ (s.base.pc u).advancing, s.base.epoch = cur →
    cur + 1 < 2 ^ 31 ∧
      ∀ t, t ≠ u → (s.sync t).active = true → (s.base.ctx t).pending (rslot cur) = none))

instance [Fintype τ] (s : State τ ν) (t : τ) : Decidable (s.Gathered t) :=
  inferInstanceAs (Decidable (∀ u, u ≠ t → (s.pc u).carries = none ∧
    ∀ e < ebrEpochCount, (s.pc u).pending (s.ctx u).pending e = none))

instance [Fintype τ] (s : SyncState τ ν) : ∀ a, Decidable (Covered s a)
  | .base a => inferInstanceAs (Decidable (s.Fair a.thread))
  | .ebrSync t => inferInstanceAs (Decidable (s.base.Gathered t))
  | .next t _ =>
    match h : s.sync t with
    | .load => decidable_of_iff (s.Fair t ∧ s.base.epoch + ebrEpochCount < 2 ^ 31)
        (by simp only [Covered, h])
    | .loop target => decidable_of_iff (s.Fair t ∧ (s.base.pc t = .ready →
        target ≤ s.base.epoch → ∀ u, u ≠ t → (s.base.pc u).busy = false))
        (by simp only [Covered, h])
    | .idle | .returned | .enter _ | .exit _ => decidable_of_iff (s.Fair t)
        (by simp only [Covered, h, and_true])

def syncInitial : SyncState τ ν := ⟨initial, fun _ => .idle, fun _ => 0⟩

/-- Thread 0 retires a node in its first critical section, advances the epoch and calls
`ebr_sync`. After its first round thread 1 registers, passes a critical section and wins the
next epoch. -/
def retireAndSync : List (SyncLabel (Fin 2) Unit) :=
  (joins (0 : Fin 2)).map .base ++
  [.base (.ebrRetire 0 ()), .base (.next 0 0), .base (.next 0 0), .base (.epochExit 0)] ++
  List.replicate 10 (.base (.next 0 0)) ++ .ebrSync 0 :: List.replicate 16 (.next 0 0) ++
  (joins (1 : Fin 2)).map .base ++ .base (.epochExit 1) ::
  List.replicate 12 (.base (.next 1 0)) ++ List.replicate 16 (.next 0 0)

/-- Thread 0 retires a node in epoch 0, and its call of `ebr_sync` goes up to epoch 4, with the
help of thread 1. -/
theorem ebr_sync_drains_helped : ∃ s : SyncState (Fin 2) Unit,
    (s.sync 0 = .returned ∧ s.base.nThreads = 2 ∧ s.base.old (s.began 0) ()) ∧ s.Drained := by
  obtain ⟨s, run, view⟩ := (syncMachine 1 (Fin 2) Unit).exists_along Covered syncInitial
    retireAndSync (fun s => (s.sync 0, s.base.nThreads, s.base.retiredAt (), s.began 0))
    (.returned, 2, some 5, 19) (by decide +kernel)
  simp only [Prod.mk.injEq] at view
  obtain ⟨returned, two, retired, began⟩ := view
  refine ⟨s, ⟨returned, two, 5, retired, ?_⟩, ?_⟩
  · rw [began]
    decide
  · exact ebr_sync_drains ⟨syncInitial, _, ⟨⟨_, rfl⟩, fun _ => ⟨rfl, rfl⟩⟩, run⟩

/-! ### Other winners

Each of three threads goes through 65535 critical sections. Thread 2 retires a node in epoch 0
and calls `ebr_sync`. It wins epoch 0, but the epochs 1 and 2 are won by the others, and the
winner of epoch 1 collects the slot of the node. -/

/-- A run without `ebr_sync` is a run of the whole machine. -/
theorem run_base {s s' : State τ ν} {as : List (Label τ ν)} (began : τ → Nat)
    (path : (machine threshold τ ν).run s as = some s') :
    (syncMachine threshold τ ν).run ⟨s, fun _ => .idle, began⟩ (as.map .base) =
      some ⟨s', fun _ => .idle, began⟩ := by
  induction as generalizing s with
  | nil => cases path; rfl
  | cons a as ih =>
    rw [Machine.run_cons] at path
    obtain ⟨u, next, rest⟩ := Option.bind_eq_some_iff.mp path
    rw [List.map_cons, Machine.run_cons]
    have first : (syncMachine threshold τ ν).step ⟨s, fun _ => .idle, began⟩ (.base a) =
        some ⟨u, fun _ => .idle, began⟩ := by
      change (step threshold s a).map _ = _
      rw [show step threshold s a = some u from next]
      rfl
    rw [first]
    exact ih rest

/-- After 65535 sections of thread 1, thread 2 has registered and passed one. -/
def threeIdle (u v : Fin 3) : State (Fin 3) Unit :=
  ((machine 256 _ _).run (idled twoIdle 131588 u 65535) (joins v ++ [.epochExit v])).getD initial

theorem threeIdle_idle : Idle (threeIdle 1 2) 263172 2 := by
  refine ⟨?_, ?_, ?_, ?_, ?_, ?_⟩ <;> decide

/-- The critical section of a thread that advances the epoch. -/
def wins (t : Fin 3) : List (SyncLabel (Fin 3) Unit) :=
  [.base (.epochEnter t), .base (.epochExit t)] ++ List.replicate 14 (.base (.next t 0))

/-- The last thread retires a node and calls `ebr_sync`; the other threads win an epoch each. -/
def shared (t u v : Fin 3) : List (SyncLabel (Fin 3) Unit) :=
  [.base (.epochEnter v), .base (.ebrRetire v ()), .base (.next v 0), .base (.next v 0),
    .base (.epochExit v), .ebrSync v] ++ List.replicate 18 (.next v 0) ++ wins t ++ wins u ++
  [.next v 0]

theorem reachable_threeIdle :
    (machine 256 (Fin 3) Unit).Reachable Free (idled (threeIdle 1 2) 263172 2 65534) := by
  have first : (machine 256 (Fin 3) Unit).run (idled twoIdle 131588 1 65535)
      (joins 2 ++ [.epochExit 2]) = some (threeIdle 1 2) :=
    (Option.getD_of_ne_none (Option.isSome_iff_ne_none.mp (by decide)) _).symm
  have second := threeIdle_idle.run_rounds (n := 65533) (k := 1) (m := 65534) rfl (by omega)
  rw [threeIdle_idle.idled_one] at second
  exact (reachable_twoIdle.along (Machine.along_of_run first)).along (Machine.along_of_run second)

/-- A reachable state of the threads is reachable with no thread in `ebr_sync`. -/
theorem reachable_base {s : State τ ν} (reached : (machine threshold τ ν).Reachable Free s) :
    (syncMachine threshold τ ν).Reachable Free ⟨s, fun _ => .idle, fun _ => 0⟩ := by
  obtain ⟨start, as, init, run⟩ := reached
  refine ⟨⟨start, fun _ => .idle, fun _ => 0⟩, as.map .base, ⟨init, fun _ => ⟨rfl, rfl⟩⟩, ?_⟩
  exact Machine.along_of_run (run_base _ run.run_eq)

/-- The call of thread 2 returns, and its own node has not been destroyed. -/
theorem ebr_sync_leaves_node : ¬ ∀ s : SyncState (Fin 3) Unit,
    (syncMachine 256 (Fin 3) Unit).Reachable Free s → s.Drained := by
  intro always
  obtain ⟨s, last, view⟩ := Option.map_eq_some_iff.mp (show ((syncMachine 256 (Fin 3) Unit).run
    ⟨idled (threeIdle 1 2) 263172 2 65534, fun _ => .idle, fun _ => 0⟩ (shared 0 1 2)).map (fun s => (s.sync 2,
      s.base.destroyed (), s.base.retiredAt (), s.began 2)) =
        some (.returned, false, some 394751, 394755) by
        decide +kernel)
  simp only [Prod.mk.injEq] at view
  obtain ⟨returned, alive, retired, began⟩ := view
  have reached := (reachable_base reachable_threeIdle).along (Machine.along_of_run last)
  have destroyed := always s reached 2 returned () ⟨394751, retired, by rw [began]; decide⟩
  rw [alive] at destroyed
  cases destroyed

end DBx1000.Epoch
