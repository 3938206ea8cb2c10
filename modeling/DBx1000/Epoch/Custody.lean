import DBx1000.Epoch.Lists

/-!
# One place for every retired node

## Main result

`retired_in_one_place`: in every interleaving, timely or not, in which `ebr_retire` finds a slot
of its array, a retired node is at each moment in the pending list of one thread and slot, in
one global stack, in the private lists of one running `try_gc` or `thread_destructor`, or
destroyed, and in one of these only. It may also be in the hands of the `ebr_retire` that has
not stored it yet. The lists are acyclic and end in NULL, and no node is destroyed twice.

`retired_out_of_place`: when the `int` that counts epochs has overflowed, `ebr_retire` takes the
remainder of a negative number for its slot. The node is stored in front of the array and is in
no list. `try_gc` makes its own slot positive.

## Proof strategy

The lists of `Placed` need nothing about epochs, and `Whole` says that no node is dropped. A
thread that has not registered yet, or whose context has been freed, has no pending nodes,
which is what `thread_init` relies on when it clears a context and `thread_destructor` when it
frees one.
-/

namespace DBx1000.Epoch

open Transition LinkedList

variable {τ ν : Type*}

/-! ### Pending lists that have to be empty -/

/-- The slots in which a thread has no pending list. -/
def Pc.vacant (p : Pc τ ν) (e : Nat) : Prop :=
  match p with
  | .fresh | .dead => True
  | .drain e' _ | .stackHead e' _ _ | .stackLink e' _ _ _ | .stackCas e' _ _ _ => e < e'
  | _ => False

/-- The slot whose nodes `thread_destructor` is transferring. -/
def Pc.draining : Pc τ ν → Option Nat
  | .drain e _ | .stackHead e _ _ | .stackLink e _ _ _ | .stackCas e _ _ _ => some e
  | _ => none

/-- There are three slots and three global, and vacant slots are empty. -/
structure Emptied (s : State τ ν) : Prop where
  pending : ∀ t e, (s.pc t).vacant e ∨ ebrEpochCount ≤ e → (s.ctx t).pending e = none
  draining : ∀ t e, (s.pc t).draining = some e → e < ebrEpochCount
  global : ∀ e, ebrEpochCount ≤ e → s.retired e = none

variable {s s' : State τ ν} {t : τ} {threshold : Nat}

namespace Emptied

variable [DecidableEq τ]

/-- A step that adds nothing to a pending list. -/
theorem walk (hi : Emptied s) {c : Ctx ν} {p : Pc τ ν}
    (pc : s'.pc = Function.update s.pc t p) (ctx : s'.ctx = Function.update s.ctx t c)
    (pending : ∀ e, c.pending e = (s.ctx t).pending e ∨ c.pending e = none)
    (less : ∀ e, p.vacant e → (s.pc t).vacant e ∨ c.pending e = none)
    (draining : ∀ e, p.draining = some e → e < ebrEpochCount)
    (global : ∀ e, ebrEpochCount ≤ e → s'.retired e = none) : Emptied s' where
  pending u e h := by
    rw [ctx, Function.update_apply]
    rw [pc, Function.update_apply] at h
    split
    · -- the thread that has moved
      next here =>
      rw [if_pos here] at h
      subst here
      rcases h with h | h
      · rcases less e h with was | none
        · rcases pending e with same | none
          · rw [same]
            exact hi.pending u e (.inl was)
          · exact none
        · exact none
      · rcases pending e with same | none
        · rw [same]
          exact hi.pending u e (.inr h)
        · exact none
    · next other =>
      rw [if_neg other] at h
      exact hi.pending u e h
  draining u e h := by
    rw [pc, Function.update_apply] at h
    split at h
    · exact draining e h
    · exact hi.draining u e h
  global := global

/-- A step to a place with the same lists. -/
theorem move (hi : Emptied s) {c : Ctx ν} {p : Pc τ ν}
    (pc : s'.pc = Function.update s.pc t p) (ctx : s'.ctx = Function.update s.ctx t c)
    (pending : c.pending = (s.ctx t).pending) (stacked : s'.retired = s.retired)
    (less : ∀ e, p.vacant e → (s.pc t).vacant e)
    (draining : ∀ e, p.draining = some e → e < ebrEpochCount) : Emptied s' :=
  hi.walk pc ctx (fun e => .inl (by rw [pending])) (fun e h => .inl (less e h)) draining
    (by rw [stacked]; exact hi.global)

variable [DecidableEq ν]

theorem resume (hi : Emptied s) {env : Nat} (h : Epoch.resume threshold s t env = some s') :
    Emptied s' := by
  unfold Epoch.resume at h
  have self : s.ctx = Function.update s.ctx t (s.ctx t) := (Function.update_eq_self t s.ctx).symm
  cases hp : s.pc t with
  | fresh | ready | dead => simp [hp] at h
  | popNext _ | popIndex _ | popHead | popCas _ _ | pushLink _ | gcEpoch | gcCount _ |
      pushIndex | gcScan _ _ _ | gcCritical _ _ _ _ | gcLocal _ _ _ _ | gcCas _ |
      refresh | retireLink _ _ | gcTail _ _ _ _ | gcJoin _ _ _ _ | destroy _ _ _ |
      pushHead =>
    simp only [hp] at h
    -- these steps touch neither pending lists nor stacks
    repeat' split at h
    all_goals cases h
    all_goals exact hi.move rfl self rfl rfl (fun _ => False.elim) (fun _ h => by cases h)
  | reclaim cur list =>
    simp only [hp] at h
    cases list <;> cases h <;> exact hi.move rfl self rfl rfl (fun _ => False.elim) (fun _ h => by cases h)
  | pushCas _ =>
    simp only [hp] at h
    split at h <;> cases h
    · refine hi.move rfl self rfl rfl (fun e (h : e < 0) => absurd h (Nat.not_lt_zero e)) ?_
      intro e h
      cases h
      decide
    · exact hi.move rfl self rfl rfl (fun _ => False.elim) (fun _ h => by cases h)
  | publish _ | enter =>
    simp only [hp] at h
    cases h
    exact hi.move rfl rfl rfl rfl (fun _ => False.elim) (fun _ h => by cases h)
  | refreshStore _ =>
    simp only [hp] at h
    split at h <;> cases h <;> exact hi.move rfl rfl rfl rfl (fun _ => False.elim) (fun _ h => by cases h)
  | fetchAdd =>
    simp only [hp] at h
    split at h <;> cases h
    · exact hi.move rfl self rfl rfl (fun _ => False.elim) (fun _ h => by cases h)
    · exact ⟨hi.pending, hi.draining, hi.global⟩
  | retirePush ptr cur =>
    simp only [hp] at h
    cases h
    refine ⟨fun u e h => ?_, fun u e h => ?_, hi.global⟩
    · -- the push is to one of the first three lists
      by_cases here : u = t
      · subst here
        rcases h with h | h
        · simp [State.goto, Pc.vacant] at h
        · -- the slot of an epoch is one of the three
          have slot := retireSlot_lt cur
          have ne : e ≠ (retireSlot cur).toNat := by
            unfold ebrEpochCount at *
            omega
          simp only [State.goto, State.setCtx, Ctx.setPending, Function.update_self,
            Function.update_of_ne ne]
          exact hi.pending u e (.inr h)
      · simp only [State.goto, State.setCtx, Function.update_of_ne here] at h ⊢
        exact hi.pending u e h
    · by_cases here : u = t
      · subst here
        simp [State.goto, Pc.draining] at h
      · simp only [State.goto, State.setCtx, Function.update_of_ne here] at h
        exact hi.draining u e h
  | gcPop cur =>
    simp only [hp] at h
    cases h
    -- the two lists that are taken become empty
    refine hi.walk rfl rfl (fun e => ?_) (fun e h => ?_) (fun e h => ?_) (fun e h => ?_)
    · simp only [Ctx.setPending, Function.update_apply]
      split
      · exact .inr rfl
      · exact .inl rfl
    · cases hf : s.retired (rslot cur) <;> cases hl : (s.ctx t).pending (rslot cur) <;>
        simp [hf, hl, joinLists, Pc.vacant] at h
    · cases hf : s.retired (rslot cur) <;> cases hl : (s.ctx t).pending (rslot cur) <;>
        simp [hf, hl, joinLists, Pc.draining] at h
    · simp only [Function.update_apply]
      split
      · rfl
      · exact hi.global e h
  | drain e node =>
    simp only [hp] at h
    have few : e < ebrEpochCount := hi.draining t e (by rw [hp]; rfl)
    cases node with
    | none =>
      -- the list `e` is at its end, and the thread goes on with the next one
      have cleared (e' : Nat) : ((s.ctx t).setPending e none).pending e' = (s.ctx t).pending e' ∨
          ((s.ctx t).setPending e none).pending e' = none := by
        simp only [Ctx.setPending, Function.update_apply]
        split
        · exact .inr rfl
        · exact .inl rfl
      have here : ((s.ctx t).setPending e none).pending e = none := Function.update_self ..
      simp only [State.drained] at h
      split at h
      · next more =>
        cases h
        refine hi.walk rfl rfl cleared (fun e' (h' : e' < e + 1) => ?_) (fun e' h' => ?_) hi.global
        · by_cases same : e' = e
          · exact .inr (same ▸ here)
          · left
            rw [hp]
            change e' < e
            omega
        · cases h'
          exact more
      · next last =>
        cases h
        refine hi.walk rfl rfl cleared (fun e' _ => ?_) (fun _ h => by cases h) hi.global
        by_cases same : e' = e
        · exact .inr (same ▸ here)
        · right
          -- behind the last list there was nothing, and the others are drained
          have none : (s.ctx t).pending e' = none := by
            apply hi.pending
            rw [hp]
            change e' < e ∨ _
            omega
          rcases cleared e' with kept | gone
          · exact kept.trans none
          · exact gone
    | some node =>
      cases h
      refine hi.move rfl self rfl rfl (by rw [hp]; exact fun _ => id) ?_
      intro e' h'
      cases h'
      exact few
  | stackHead e _ _ | stackLink e _ _ _ =>
    simp only [hp] at h
    cases h
    refine hi.move rfl self rfl rfl (by rw [hp]; exact fun _ => id) ?_
    intro e' h'
    exact hi.draining t e' (by rw [hp]; exact h')
  | stackCas e node next old =>
    simp only [hp] at h
    have few : e < ebrEpochCount := hi.draining t e (by rw [hp]; rfl)
    split at h
    · cases h
      refine hi.walk rfl self (fun _ => .inl rfl) (fun e' h' => .inl (by rw [hp]; exact h'))
        (fun e' h' => ?_) (fun e' h' => ?_)
      · cases h'
        exact few
      · -- a node is pushed to the stack of one of the three lists
        have ne : e' ≠ e := by omega
        change Function.update s.retired e (some node) e' = none
        rw [Function.update_of_ne ne]
        exact hi.global e' h'
    · cases h
      refine hi.move rfl self rfl rfl (by rw [hp]; exact fun _ => id) ?_
      intro e' h'
      cases h'
      exact few

theorem act (hi : Emptied s) {a : Label τ ν} (h : Epoch.act threshold s a = some s') :
    Emptied s' := by
  have self (t : τ) : s.ctx = Function.update s.ctx t (s.ctx t) :=
    (Function.update_eq_self t s.ctx).symm
  cases a with
  | register t =>
    simp only [Epoch.act] at h
    split at h <;> cases h
    exact hi.walk rfl rfl (fun _ => .inr rfl) (fun _ => False.elim) (fun _ h => by cases h) hi.global
  | epochEnter t =>
    simp only [Epoch.act] at h
    split at h <;> cases h
    next hp _ =>
      refine hi.move (p := .ready) ?_ rfl rfl rfl (fun _ => False.elim) (fun _ h => by cases h)
      rw [← hp, Function.update_eq_self]
      rfl
  | epochExit t =>
    simp only [Epoch.act] at h
    split at h <;> cases h
    refine hi.move rfl rfl rfl rfl (fun e h => ?_) (fun e h => ?_) <;> split at h <;> cases h
  | ebrRetire t ptr =>
    simp only [Epoch.act] at h
    split at h <;> cases h
    exact hi.move rfl (self t) rfl rfl (fun _ => False.elim) (fun _ h => by cases h)
  | exit t =>
    simp only [Epoch.act] at h
    split at h <;> cases h
    exact hi.move rfl (self t) rfl rfl (fun _ => False.elim) (fun _ h => by cases h)
  | next t env => exact hi.resume h

omit [DecidableEq τ] [DecidableEq ν] in
theorem init (next : ν → Option ν) : Emptied ({ initial with gcNext := next } : State τ ν) where
  pending _ _ _ := rfl
  draining _ _ h := by cases h
  global _ _ := rfl

end Emptied

/-! ### Slots in front of the array -/

/-- `ebr_retire` finds a slot of its array: the epoch that it loads is not negative, or it is a
multiple of three. -/
def InRange (s : State τ ν) : Label τ ν → Prop
  | .ebrRetire _ _ => 0 ≤ signed s.epoch ∨ (ebrEpochCount : Int) ∣ signed s.epoch
  | _ => True

instance (s : State τ ν) : ∀ a, Decidable (InRange s a)
  | .ebrRetire _ _ =>
    inferInstanceAs (Decidable (0 ≤ signed s.epoch ∨ (ebrEpochCount : Int) ∣ signed s.epoch))
  | .register _ | .epochEnter _ | .epochExit _ | .exit _ | .next _ _ => isTrue trivial

/-- The calls of `ebr_retire` that have loaded the epoch have a slot of their array. -/
def State.ranged (s : State τ ν) : Prop :=
  ∀ t ptr cur, s.pc t = .retireLink ptr cur → 0 ≤ retireSlot cur

section

variable [DecidableEq τ] [DecidableEq ν]

/-- Inside a function no thread comes to the load of `ebr_retire`. -/
theorem resume_pc {env : Nat} (h : resume threshold s t env = some s') :
    ∃ p, s'.pc = Function.update s.pc t p ∧ ∀ ptr cur, p ≠ .retireLink ptr cur := by
  unfold resume at h
  cases hp : s.pc t with
  | fetchAdd =>
    -- with too many threads the process stops and the thread stays where it is
    simp only [hp] at h
    split at h <;> cases h
    · exact ⟨_, rfl, fun _ _ h => by cases h⟩
    · exact ⟨_, (Function.update_eq_self t s.pc).symm, fun _ _ h => by rw [hp] at h; cases h⟩
  | gcPop cur =>
    simp only [hp] at h
    cases h
    refine ⟨_, rfl, fun ptr cur' => ?_⟩
    cases s.retired (rslot cur) <;> cases (s.ctx t).pending (rslot cur) <;>
      exact fun h => by cases h
  | reclaim cur list =>
    simp only [hp] at h
    cases list <;> cases h <;> exact ⟨_, rfl, fun _ _ h => by cases h⟩
  | drain e node =>
    simp only [hp] at h
    cases node with
    | none =>
      simp only [State.drained] at h
      split at h <;> cases h <;> exact ⟨_, rfl, fun _ _ h => by cases h⟩
    | some node =>
      cases h
      exact ⟨_, rfl, fun _ _ h => by cases h⟩
  | _ =>
    simp only [hp] at h
    repeat' split at h
    all_goals cases h
    all_goals exact ⟨_, rfl, fun _ _ h => by cases h⟩

theorem ranged_of_act (hi : s.ranged) {a : Label τ ν} (met : InRange s a)
    (h : act threshold s a = some s') : s'.ranged := by
  -- only `ebr_retire` puts a thread there
  have kept {p : Pc τ ν} {t : τ} (pc : s'.pc = Function.update s.pc t p)
      (away : ∀ ptr cur, p ≠ .retireLink ptr cur) : s'.ranged := by
    intro u ptr cur hu
    rw [pc, Function.update_apply] at hu
    split at hu
    · exact absurd hu (away ptr cur)
    · exact hi u ptr cur hu
  cases a with
  | register t | exit t =>
    simp only [act] at h
    split at h <;> cases h
    exact kept (t := t) rfl (fun _ _ h => by cases h)
  | epochEnter t =>
    simp only [act] at h
    split at h <;> cases h
    exact hi
  | epochExit t =>
    simp only [act] at h
    split at h <;> cases h
    exact kept (t := t) rfl (fun _ _ h => by split at h <;> cases h)
  | ebrRetire t ptr =>
    simp only [act] at h
    split at h <;> cases h
    intro u ptr' cur hu
    simp only [retire, State.goto, Function.update_apply] at hu
    split at hu
    · cases hu
      -- this is the condition on the epoch
      exact retireSlot_nonneg_iff.mpr met
    · exact hi u ptr' cur hu
  | next t env =>
    obtain ⟨p, pc, away⟩ := resume_pc h
    exact kept pc away

end

/-! ### Calls of the destructor -/

/-- The step is a call of `bsl_node_destroy` with `n`. -/
def Destroys (s : State τ ν) (a : Label τ ν) (n : ν) : Prop :=
  ∃ t env cur next, a = .next t env ∧ s.pc t = .destroy cur n next

variable [DecidableEq τ] [DecidableEq ν]

theorem resume_destroyed {env : Nat} (h : resume threshold s t env = some s') :
    s'.destroyed = s.destroyed ∨ ∃ cur n next, s.pc t = .destroy cur n next ∧
      s'.destroyed = Function.update s.destroyed n true := by
  unfold resume at h
  cases hp : s.pc t with
  | destroy cur n next =>
    simp only [hp] at h
    cases h
    exact .inr ⟨cur, n, next, rfl, rfl⟩
  | reclaim cur list =>
    left
    simp only [hp] at h
    cases list <;> cases h <;> rfl
  | drain e node =>
    left
    simp only [hp] at h
    cases node with
    | none =>
      simp only [State.drained] at h
      split at h <;> cases h <;> rfl
    | some node => cases h; rfl
  | _ =>
    left
    simp only [hp] at h
    repeat' split at h
    all_goals cases h
    all_goals rfl

/-- What has been destroyed stays so, and a call of `bsl_node_destroy` destroys its node. -/
theorem step_destroyed {a : Label τ ν} (h : step threshold s a = some s') {n : ν}
    (was : s.destroyed n = true ∨ Destroys s a n) : s'.destroyed n = true := by
  simp only [step] at h
  split at h
  · cases h
  · obtain ⟨u, hu, rfl⟩ := Option.map_eq_some_iff.mp h
    change u.destroyed n = true
    cases a with
    | next t env =>
      rcases was with was | ⟨_, _, cur, next, same, hp⟩
      · rcases resume_destroyed hu with same | ⟨_, m, _, -, upd⟩
        · rw [same]
          exact was
        · rw [upd, Function.update_apply]
          split
          · rfl
          · exact was
      · cases same
        simp only [act, resume, hp] at hu
        cases hu
        exact Function.update_self ..
    | _ =>
      have was := was.resolve_right (by rintro ⟨_, _, _, _, same, _⟩; cases same)
      simp only [act] at hu
      split at hu <;> cases hu
      exact was

/-! ### Who has a retired node -/

/-- Who can have a retired node: the pending list of a thread and slot, a global stack, the
private lists of a running `try_gc` or `thread_destructor`, a running `ebr_retire`, or nobody,
because it has been destroyed. -/
inductive Holder (τ : Type*)
  | pending (t : τ) (e : Nat)
  | stack (e : Nat)
  | tryGc (t : τ)
  | destructor (t : τ)
  | ebrRetire (t : τ)
  | destroyed

/-- Where a node can be found: in a list, in the hands of a thread, or destroyed. -/
inductive Spot (τ : Type*)
  | list (p : Place τ)
  | hand (t : τ)
  | destroyed

def State.found (s : State τ ν) (lists : Place τ → List ν) (n : ν) : Spot τ → Prop
  | .list p => n ∈ lists p
  | .hand t => s.hand t = some n
  | .destroyed => s.destroyed n = true

/-- The function that a spot belongs to. -/
def State.holder (s : State τ ν) : Spot τ → Holder τ
  | .list (.stack e) => .stack e
  | .list (.slot t e) => if (s.pc t).draining = some e then .destructor t else .pending t e
  | .list (.taken t) | .list (.behind t) => .tryGc t
  | .hand t =>
    match s.pc t with
    | .retireLink _ _ | .retirePush _ _ => .ebrRetire t
    | .stackHead _ _ _ | .stackLink _ _ _ _ | .stackCas _ _ _ _ => .destructor t
    | _ => .tryGc t
  | .destroyed => .destroyed

def State.holds (s : State τ ν) (lists : Place τ → List ν) (n : ν) (h : Holder τ) : Prop :=
  ∃ a, s.found lists n a ∧ s.holder a = h

omit [DecidableEq τ] [DecidableEq ν] in
theorem pending_of_not_draining {p : Pc τ ν} {e : Nat} (h : p.draining ≠ some e)
    (pending : Nat → Option ν) : p.pending pending e = pending e := by
  cases p <;> first | rfl | exact if_neg fun same => h (by rw [same]; rfl)

omit [DecidableEq τ] [DecidableEq ν] in
theorem slot_of_holder_pending {s : State τ ν} {a : Spot τ} {t : τ} {e : Nat}
    (h : s.holder a = .pending t e) :
    a = .list (.slot t e) ∧ (s.pc t).draining ≠ some e := by
  cases a with
  | list p =>
    cases p with
    | slot u e' =>
      simp only [State.holder] at h
      split at h
      · cases h
      · next still =>
        cases h
        exact ⟨rfl, still⟩
    | _ => cases h
  | hand u =>
    simp only [State.holder] at h
    split at h <;> cases h
  | destroyed => cases h

/-- What runs keep, whatever the order of the steps. -/
structure Kept (s : State τ ν) (lists : Place τ → List ν) : Prop where
  placed : Placed False s lists
  whole : Whole s lists
  emptied : Emptied s
  ranged : s.ranged

namespace Kept

variable {lists : Place τ → List ν}

omit [DecidableEq τ] [DecidableEq ν] in
/-- A node is found at one spot only. -/
theorem found_unique (hi : Kept s lists) {n : ν} {a b : Spot τ} (ha : s.found lists n a)
    (hb : s.found lists n b) : a = b := by
  have gone {p : Place τ} (mem : n ∈ lists p) (dead : s.destroyed n = true) : False := by
    rw [((hi.whole.here n).mp (.inl ⟨p, mem⟩)).2] at dead
    cases dead
  have gone' {t : τ} (held : s.hand t = some n) (dead : s.destroyed n = true) : False := by
    rw [((hi.whole.here n).mp (.inr ⟨t, held⟩)).2] at dead
    cases dead
  cases a with
  | list p =>
    cases b with
    | list q => rw [hi.placed.apart.disjoint p q n ha hb]
    | hand t => exact (hi.placed.apart.outside t p n hb ha).elim
    | destroyed => exact (gone ha hb).elim
  | hand t =>
    cases b with
    | list q => exact (hi.placed.apart.outside t q n ha hb).elim
    | hand u => rw [hi.placed.apart.single t u n ha hb]
    | destroyed => exact (gone' ha hb).elim
  | destroyed =>
    cases b with
    | list q => exact (gone hb ha).elim
    | hand u => exact (gone' hb ha).elim
    | destroyed => rfl

omit [DecidableEq τ] [DecidableEq ν] in
/-- A retired node is found somewhere. -/
theorem exists_found (hi : Kept s lists) {n : ν} (retired : s.retiredAt n ≠ none) :
    ∃ a, s.found lists n a := by
  cases hd : s.destroyed n with
  | true => exact ⟨.destroyed, hd⟩
  | false =>
    rcases (hi.whole.here n).mpr ⟨retired, hd⟩ with ⟨p, mem⟩ | ⟨t, held⟩
    · exact ⟨.list p, mem⟩
    · exact ⟨.hand t, held⟩

omit [DecidableEq τ] [DecidableEq ν] in
/-- A node that a thread is about to destroy has not been destroyed. -/
theorem alive (hi : Kept s lists) {a : Label τ ν} {n : ν} (call : Destroys s a n) :
    s.destroyed n = false := by
  obtain ⟨t, env, cur, next, -, hp⟩ := call
  have held : s.hand t = some n := by rw [State.hand, hp]; rfl
  exact ((hi.whole.here n).mp (.inr ⟨t, held⟩)).2

/-- A step keeps the invariant, and only a node that its thread carries gets into a list other
than the private ones of its `try_gc`. -/
theorem step (hi : Kept s lists) {a : Label τ ν} (met : InRange s a)
    (h : Epoch.step threshold s a = some s') : ∃ lists', Kept s' lists' ∧ ∀ p n, n ∈ lists' p → n ∈ lists p ∨
      (s.pc a.thread).carries = some n ∨ p = .taken a.thread ∨ p = .behind a.thread := by
  simp only [Epoch.step] at h
  split at h
  · cases h
  · obtain ⟨u, hu, rfl⟩ := Option.map_eq_some_iff.mp h
    obtain ⟨lists', placed, moved⟩ := hi.placed.act False.elim False.elim hi.ranged hu
    have whole := moved.whole
      (fun fresh e => hi.emptied.pending a.thread e (.inl (by rw [fresh]; trivial))) hi.whole
    have emptied := hi.emptied.act hu
    exact ⟨lists', ⟨⟨placed.apart, placed.belongs, placed.fits, placed.linked⟩,
      ⟨whole.here, whole.retired⟩, ⟨emptied.pending, emptied.draining, emptied.global⟩,
      fun t ptr cur => ranged_of_act hi.ranged met hu t ptr cur⟩, moved.origin⟩

omit [DecidableEq τ] [DecidableEq ν] in
theorem init (next : ν → Option ν) :
    Kept ({ initial with gcNext := next } : State τ ν) (fun _ => []) := by
  have start : Placed False ({ initial with gcNext := next } : State τ ν) (fun _ => []) ∧
      Whole ({ initial with gcNext := next } : State τ ν) (fun _ => []) := Placed.init next
  exact ⟨start.1, start.2, .init next, fun _ _ _ h => by cases h⟩

theorem of_reachable (reached : (machine threshold τ ν).Reachable InRange s) :
    ∃ lists, Kept s lists := by
  refine reached.invariant (I := fun s => ∃ lists, Kept s lists) ?_ ?_
  · rintro s ⟨next, rfl⟩
    exact ⟨_, init next⟩
  · rintro s a s' ⟨lists, hi⟩ met h
    obtain ⟨lists', hi', -⟩ := hi.step met h
    exact ⟨lists', hi'⟩

end Kept

/-- What has been destroyed stays so along a run. -/
theorem destroyed_along {ok : State τ ν → Label τ ν → Prop} {as : List (Label τ ν)}
    (run : (machine threshold τ ν).Along ok s as s') {n : ν} (was : s.destroyed n = true) :
    s'.destroyed n = true := by
  refine run.preserves (I := fun s => s.destroyed n = true) ?_ was
  intro s a s' was _ h
  exact step_destroyed h (.inl was)

/-- The lists end in NULL without a cycle, every node that has been retired has exactly one
holder and no other node has any, and a thread that is not registered holds nothing in its
context. -/
def State.InOnePlace (s : State τ ν) : Prop :=
  ∃ lists : Place τ → List ν,
    (∀ p, Chain s.gcNext (s.head p) (lists p) ∧ (lists p).Nodup) ∧
    (∀ n, s.retiredAt n ≠ none → ∃! h, s.holds lists n h) ∧
    (∀ n, s.retiredAt n = none → ∀ h, ¬ s.holds lists n h) ∧
    ∀ t e, s.pc t = .fresh ∨ s.pc t = .dead ∨ ebrEpochCount ≤ e →
      ∀ n, ¬ s.holds lists n (.pending t e)

omit [DecidableEq τ] [DecidableEq ν] in
theorem Kept.inOnePlace {lists : Place τ → List ν} (hi : Kept s lists) : s.InOnePlace := by
  refine ⟨lists, ?_, ?_, ?_, ?_⟩
  · intro p
    exact ⟨hi.placed.apart.chain p, hi.placed.apart.nodup p⟩
  · intro n retired
    obtain ⟨a, ha⟩ := hi.exists_found retired
    refine ⟨s.holder a, ⟨a, ha, rfl⟩, ?_⟩
    rintro h ⟨b, hb, rfl⟩
    rw [hi.found_unique hb ha]
  · rintro n new h ⟨a, ha, -⟩
    have somewhere_retired (here : s.somewhere lists n) : False :=
      ((hi.whole.here n).mp here).1 new
    cases a with
    | list p => exact somewhere_retired (.inl ⟨p, ha⟩)
    | hand t => exact somewhere_retired (.inr ⟨t, ha⟩)
    | destroyed => exact hi.whole.retired n ha new
  · rintro t e idle n ⟨a, ha, owner⟩
    obtain ⟨rfl, still⟩ := slot_of_holder_pending owner
    have none : (s.ctx t).pending e = none := by
      rcases idle with fresh | dead | left
      · exact hi.emptied.pending t e (.inl (by rw [fresh]; trivial))
      · exact hi.emptied.pending t e (.inl (by rw [dead]; trivial))
      · exact hi.emptied.pending t e (.inr left)
    have chain := hi.placed.apart.chain (.slot t e)
    rw [State.head, pending_of_not_draining still, none] at chain
    rw [State.found, chain.eq_nil] at ha
    cases ha

/-- **Retired nodes are reclaimed at most once and never dropped** while `ebr_retire` finds a
slot of its array: in every state that such a run reaches all retired nodes are in one place,
and no call of `bsl_node_destroy` with a node is followed by another one. -/
theorem retired_in_one_place (reached : (machine threshold τ ν).Reachable InRange s) :
    s.InOnePlace ∧
    ∀ n a u as v b, Destroys s a n → step threshold s a = some u →
      (machine threshold τ ν).Along InRange u as v → ¬ Destroys v b n := by
  obtain ⟨lists, hi⟩ := Kept.of_reachable reached
  refine ⟨hi.inOnePlace, ?_⟩
  intro n a u as v b call next run again
  have met : InRange s a := by
    obtain ⟨_, _, _, _, rfl, _⟩ := id call
    trivial
  have dead : v.destroyed n = true := destroyed_along run (step_destroyed next (.inr call))
  obtain ⟨_, later⟩ := Kept.of_reachable ((reached.step met next).along run)
  rw [later.alive again] at dead
  cases dead

/-- Thread 0 retires a node and exits, and its node is on a global stack. -/
theorem retired_in_one_place_exited : ∃ s : State (Fin 3) Unit,
    (s.pc 0 = .dead ∧ s.retired 0 = some ()) ∧ s.InOnePlace := by
  obtain ⟨s, run, view⟩ := (machine 256 (Fin 3) Unit).exists_along InRange initial
    (joins 0 ++ [.ebrRetire 0 (), .next 0 0, .next 0 0] ++ leaves 0 ++
      List.replicate 7 (.next 0 0))
    (fun s => (s.pc 0, s.retired 0)) (.dead, some ()) (by decide)
  exact ⟨s, Prod.mk.inj view, (retired_in_one_place ⟨initial, _, ⟨_, rfl⟩, run⟩).1⟩

/-! ### After 2^31 epochs

A thread by itself reaches `try_gc` after 65536 critical sections, and nothing holds it back
there. -/

/-- The only thread is at `p` outside critical sections, has passed `n` of them, and nothing has
been retired. -/
structure Alone (s : State Unit Unit) (p : Pc Unit Unit) (n ops epoch : Nat) : Prop where
  running : s.aborted = false ∧ s.overrun = false
  place : s.pc () = p
  out : (s.ctx ()).inCritical = false
  ticks : (s.ctx ()).epochTick = n ∧ (s.ctx ()).opCount = ops
  epoch : s.epoch = epoch
  scanned : s.nThreads = 1 ∧ s.contexts 0 = some ()
  empty : ∀ e, (s.ctx ()).pending e = none ∧ s.retired e = none
  new : s.retiredAt () = none ∧ s.destroyed () = false

/-- Some run leads the thread to `p`. -/
def Comes (p : Pc Unit Unit) (n ops epoch : Nat) : Prop :=
  ∃ s, (machine 256 Unit Unit).Reachable Free s ∧ Alone s p n ops epoch

theorem Comes.along {p q : Pc Unit Unit} {n ops epoch n' ops' epoch' : Nat}
    (as : List (Label Unit Unit)) (h : Comes p n ops epoch)
    (step : ∀ s, Alone s p n ops epoch → ∃ s', (machine 256 Unit Unit).run s as = some s' ∧
      Alone s' q n' ops' epoch') : Comes q n' ops' epoch' := by
  obtain ⟨s, reached, alone⟩ := h
  obtain ⟨s', run, alone'⟩ := step s alone
  exact ⟨s', reached.along (Machine.along_of_run run), alone'⟩

/-- A critical section without a refresh of the local epoch. -/
theorem Comes.round {n ops epoch : Nat} (h : Comes .ready n ops epoch) :
    Comes (if (n + 1) % 256 = 0 then .refresh else .ready) (n + 1) ops epoch := by
  refine h.along [.epochEnter (), .epochExit ()] fun s alone => ?_
  obtain ⟨⟨running, inside⟩, place, out, ⟨ticks, count⟩, known, scanned, empty, new⟩ := alone
  simp only [Machine.run, machine, step, act, State.halted, running, inside, place, out, leave,
    State.announce, State.setCtx, State.goto, Option.map, Option.bind, Function.update_self,
    Bool.or_self, Bool.false_eq_true, if_false]
  refine ⟨_, rfl, ⟨rfl, rfl⟩, ?_, ?_, ⟨?_, ?_⟩, known, scanned, fun e => ?_, new⟩
  all_goals simp only [Function.update_self, ticks, count]
  exact empty e

/-- The refresh of the local epoch. -/
theorem Comes.refresh {n ops epoch : Nat} (h : Comes .refresh n ops epoch) :
    Comes (if (ops + 1) % 256 = 0 then .gcEpoch else .ready) n (ops + 1) epoch := by
  refine h.along [.next () 0, .next () 0] fun s alone => ?_
  obtain ⟨⟨running, inside⟩, place, out, ⟨ticks, count⟩, known, scanned, empty, new⟩ := alone
  by_cases full : (ops + 1) % 256 = 0
  all_goals
    simp only [Machine.run, machine, step, act, resume, State.halted, running, inside, place,
      State.setCtx, State.goto, Option.map, Option.bind, Function.update_self, Bool.or_self,
      Bool.false_eq_true, if_false, count, full, if_true]
    refine ⟨_, rfl, ⟨rfl, rfl⟩, ?_, ?_, ⟨?_, ?_⟩, known, scanned, fun e => ?_, new⟩
    all_goals simp only [Function.update_self, out, ticks]
    exact empty e

/-- `try_gc` scans the only context and comes to its CAS. -/
theorem Comes.scan {n ops epoch : Nat} (h : Comes .gcEpoch n ops epoch) :
    Comes (.gcCas epoch) n ops epoch := by
  refine h.along (List.replicate 5 (.next () 0)) fun s alone => ?_
  obtain ⟨⟨running, inside⟩, place, out, ticks, known, ⟨count, slot⟩, empty, new⟩ := alone
  simp only [List.replicate, Machine.run, machine, step, act, resume, State.halted, running, inside,
    place, State.goto, Option.map, Option.bind, Function.update_self, Bool.or_self,
    Bool.false_eq_true, if_false, if_true, count, slot, known, Nat.zero_lt_one, Nat.lt_irrefl,
    Nat.zero_add, State.readCritical, out]
  exact ⟨_, rfl, ⟨rfl, rfl⟩, by simp only [Function.update_self], out, ticks, rfl, ⟨rfl, slot⟩,
    empty, new⟩

/-- The CAS, and `reclaim_list` of no list. -/
theorem Comes.advance {n ops epoch : Nat} (h : Comes (.gcCas epoch) n ops epoch) :
    Comes .ready n ops ((epoch + 1) % 2 ^ 32) := by
  refine h.along (List.replicate 3 (.next () 0)) fun s alone => ?_
  obtain ⟨⟨running, inside⟩, place, out, ticks, known, scanned, empty, new⟩ := alone
  simp only [List.replicate, Machine.run, machine, step, act, resume, State.halted, running, inside,
    place, State.goto, State.setCtx, Option.map, Option.bind, Function.update_self, Bool.or_self,
    Bool.false_eq_true, if_false, if_true, known, (empty _).1, (empty _).2, joinLists]
  refine ⟨_, rfl, ⟨rfl, rfl⟩, ?_, ?_, ?_, rfl, scanned, fun e => ?_, new⟩
  all_goals simp only [Function.update_self, out, ticks, Ctx.setPending, Function.update_apply,
    empty, ite_self, and_self]

/-- The thread has registered and passed one critical section. -/
def oneSection : State Unit Unit :=
  ((machine 256 _ _).run initial (joins () ++ [.epochExit ()])).getD initial

/-- The thread can go through any number of critical sections. -/
theorem comes_ready (n : Nat) :
    Comes .ready (n + 1) ((n + 1) / 256) ((n + 1) / 65536 % 2 ^ 32) := by
  induction n with
  | zero =>
    have first : (machine 256 Unit Unit).run initial (joins () ++ [.epochExit ()]) =
        some oneSection :=
      (Option.getD_of_ne_none (Option.isSome_iff_ne_none.mp (by decide)) _).symm
    have start : (machine 256 Unit Unit).Reachable Free initial := .init ⟨_, rfl⟩
    refine ⟨oneSection, start.along (Machine.along_of_run first), ?_⟩
    exact ⟨⟨rfl, rfl⟩, rfl, rfl, ⟨rfl, rfl⟩, rfl, ⟨rfl, rfl⟩, fun _ => ⟨rfl, rfl⟩, rfl, rfl⟩
  | succ n ih =>
    have round := ih.round
    generalize (n + 1) = k at *
    by_cases tick : (k + 1) % 256 = 0
    · rw [if_pos tick] at round
      have refresh := round.refresh
      rw [show k / 256 + 1 = (k + 1) / 256 by omega] at refresh
      by_cases full : (k + 1) / 256 % 256 = 0
      · rw [if_pos full] at refresh
        have advance := refresh.scan.advance
        rwa [show (k / 65536 % 2 ^ 32 + 1) % 2 ^ 32 = (k + 1) / 65536 % 2 ^ 32 by omega]
          at advance
      · rw [if_neg full] at refresh
        rwa [show k / 65536 = (k + 1) / 65536 by omega] at refresh
    · rw [if_neg tick] at round
      rwa [show k / 256 = (k + 1) / 256 by omega, show k / 65536 = (k + 1) / 65536 by omega]
        at round

/-- **A retired node is lost** when the epoch has overflowed. After 2^31 advances `g_epoch` is
-2^31, its remainder is -2, and the thread stores the node that it retires in front of its
array. -/
theorem retired_out_of_place : ¬ ∀ s : State Unit Unit,
    (machine 256 Unit Unit).Reachable Free s → s.InOnePlace := by
  intro always
  obtain ⟨s, reached, alone⟩ := comes_ready (2 ^ 31 * 65536 - 1)
  obtain ⟨⟨running, inside⟩, place, out, -, known, -, empty, new, alive⟩ := alone
  have slot : retireSlot (2 ^ 31) < 0 := by decide
  have run : ∃ s', (machine 256 Unit Unit).run s [.ebrRetire () (), .next () 0] = some s' ∧
      s'.pc () = .ready ∧ s'.retiredAt () ≠ none ∧ s'.destroyed () = false ∧
      ∀ e, (s'.ctx ()).pending e = none ∧ s'.retired e = none := by
    simp only [Machine.run, machine, step, act, resume, retire, State.halted, running, inside,
      place, new, State.goto, Option.map, Option.bind, Function.update_self, Bool.or_self,
      Bool.false_eq_true, if_false, known]
    rw [show (2 ^ 31 * 65536 - 1 + 1) / 65536 % 2 ^ 32 = 2 ^ 31 by decide, if_pos slot]
    refine ⟨_, rfl, ?_, ?_, alive, empty⟩
    all_goals simp only [Function.update_self, ne_eq, reduceCtorEq, not_false_eq_true]
  obtain ⟨s', run, ready, retired, alive, empty⟩ := run
  obtain ⟨lists, chains, one, -⟩ := always s' (reached.along (Machine.along_of_run run))
  obtain ⟨h, ⟨spot, found, -⟩, -⟩ := one () retired
  cases spot with
  | list p =>
    have head : s'.head p = none := by
      cases p with
      | stack e => exact (empty e).2
      | slot t e => rw [State.head, ready]; exact (empty e).1
      | taken t | behind t => rw [State.head, ready]; rfl
    have chain := (chains p).1
    rw [head] at chain
    rw [State.found, chain.eq_nil] at found
    cases found
  | hand t =>
    rw [State.found, State.hand, ready] at found
    cases found
  | destroyed =>
    rw [State.found, alive] at found
    cases found

end DBx1000.Epoch
