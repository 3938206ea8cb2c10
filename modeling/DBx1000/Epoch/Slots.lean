import DBx1000.Epoch.Model
import DBx1000.Library.Chain

/-!
# Who owns which context slot

`Slots` keeps of a state what decides the ownership of slots, and `Slots.Step` is the
protocol that registration and exit follow when no pop acts on a stale `next` pointer.
Every slot index handed out so far is either in the free list or held by one thread.

## Proof strategy

A step of the machine is first read as a step of the protocol, by the place of the thread. On the
protocol the invariant is a matter of the indices that are touched: a pop, a push and a publication
move one index between the free list and one thread.
-/

namespace DBx1000.Epoch

open Transition LinkedList

/-- What a thread has to do with its slot. -/
inductive Role
  | outside
  /-- Popped from the free list, `old->index` not yet read. -/
  | taken (old : Nat)
  /-- Has an index, not yet in `g_contexts`. -/
  | given (idx : Nat)
  | registered
  /-- Out of `g_contexts`, on the way back to the free list. -/
  | returning
  | linking
  | pushing (old : Option Nat)

variable {τ ν : Type*}

def Pc.role : Pc τ ν → Role
  | .fresh | .popHead | .popNext _ | .popCas _ _ | .fetchAdd => .outside
  | .popIndex old => .taken old
  | .publish idx => .given idx
  | .pushIndex => .returning
  | .pushHead | .pushLink _ => .linking
  | .pushCas old => .pushing old
  | .drain _ _ | .stackHead _ _ _ | .stackLink _ _ _ _ | .stackCas _ _ _ _ | .dead => .outside
  | _ => .registered

/-- The slot that goes with a role, given `slot_index`. -/
@[grind =] def Role.holds (slot : Nat) : Role → Option Nat
  | .outside => none
  | .taken i | .given i => some i
  | .registered | .returning | .linking | .pushing _ => some slot

structure Slots (τ : Type*) where
  nThreads : Nat
  contexts : Nat → Option τ
  freeHead : Option Nat
  node : Nat → SlotNode
  slot : τ → Nat
  role : τ → Role

namespace Slots

/-- The slot that a thread has for itself. -/
def holds (v : Slots τ) (t : τ) : Option Nat := (v.role t).holds (v.slot t)

/-- A slot index in circulation. -/
def issued (v : Slots τ) (i : Nat) : Prop := i < v.nThreads ∧ i < ebrMaxThreads

structure Inv (v : Slots τ) : Prop where
  owned : ∀ t u i, v.holds t = some i → v.holds u = some i → t = u
  bound : ∀ t i, v.holds t = some i → v.issued i
  named : ∀ i t, v.contexts i = some t ↔ v.role t = .registered ∧ v.slot t = i
  free : ∃ cells, Chain (fun i => (v.node i).next) v.freeHead cells ∧ cells.Nodup ∧
    ∀ i ∈ cells, v.issued i ∧ (v.node i).index = i ∧ ∀ t, v.holds t ≠ some i
  index : ∀ t i, v.role t = .taken i → (v.node i).index = i
  returned : ∀ t, (v.role t = .linking ∨ ∃ old, v.role t = .pushing old) →
    (v.node (v.slot t)).index = v.slot t
  linked : ∀ t old, v.role t = .pushing old → (v.node (v.slot t)).next = old

variable [DecidableEq τ]

def become (v : Slots τ) (t : τ) (r : Role) : Slots τ :=
  { v with role := Function.update v.role t r }

/-- One step of thread `t` in the ownership protocol. -/
inductive Step (v : Slots τ) (t : τ) : Slots τ → Prop
  | stay : Step v t v
  | clear : v.role t = .outside → Step v t { v with slot := Function.update v.slot t 0 }
  | pop (old : Nat) : v.role t = .outside → v.freeHead = some old →
      Step v t { v.become t (.taken old) with freeHead := (v.node old).next }
  | read (old : Nat) : v.role t = .taken old →
      Step v t (v.become t (.given (v.node old).index))
  | count : v.role t = .outside → v.nThreads < ebrMaxThreads →
      Step v t { v.become t (.given v.nThreads) with nThreads := v.nThreads + 1 }
  | overflow : Step v t { v with nThreads := v.nThreads + 1 }
  | publish (i : Nat) : v.role t = .given i →
      Step v t { v.become t .registered with
        contexts := Function.update v.contexts i (some t)
        slot := Function.update v.slot t i }
  | withdraw : v.role t = .registered →
      Step v t { v.become t .returning with
        contexts := Function.update v.contexts (v.slot t) none }
  | store : v.role t = .returning →
      Step v t { v.become t .linking with
        node := Function.update v.node (v.slot t) { v.node (v.slot t) with index := v.slot t } }
  | link (old : Option Nat) : v.role t = .linking →
      Step v t { v.become t (.pushing old) with
        node := Function.update v.node (v.slot t) { v.node (v.slot t) with next := old } }
  | retry (old : Option Nat) : v.role t = .pushing old → Step v t (v.become t .linking)
  | push (old : Option Nat) : v.role t = .pushing old → v.freeHead = old →
      Step v t { v.become t .outside with freeHead := some (v.slot t) }

/-- Every step of the protocol keeps the slots apart. -/
theorem Inv.step {v v' : Slots τ} {t : τ} (hi : v.Inv) (h : Step v t v') : v'.Inv := by
  obtain ⟨owned, bound, named, ⟨cells, chain, nodup, free⟩, index, returned, linked⟩ := hi
  simp only [holds, issued] at owned bound free
  cases h with
  | stay => exact ⟨owned, bound, named, ⟨cells, chain, nodup, free⟩, index, returned, linked⟩
  | clear out =>
    refine ⟨?_, ?_, ?_, ⟨cells, chain, nodup, ?_⟩, ?_, ?_, ?_⟩ <;>
      simp only [holds, issued, Function.update_apply] <;> grind
  | read old taken =>
    refine ⟨?_, ?_, ?_, ⟨cells, chain, nodup, ?_⟩, ?_, ?_, ?_⟩ <;>
      simp only [holds, issued, become, Function.update_apply] <;> grind
  | overflow =>
    refine ⟨?_, ?_, ?_, ⟨cells, chain, nodup, ?_⟩, ?_, ?_, ?_⟩ <;>
      simp only [holds, issued] <;> grind
  | publish i given =>
    refine ⟨?_, ?_, ?_, ⟨cells, chain, nodup, ?_⟩, ?_, ?_, ?_⟩ <;>
      simp only [holds, issued, become, Function.update_apply] <;> grind
  | withdraw reg =>
    refine ⟨?_, ?_, ?_, ⟨cells, chain, nodup, ?_⟩, ?_, ?_, ?_⟩ <;>
      simp only [holds, issued, become, Function.update_apply] <;> grind
  | retry old push =>
    refine ⟨?_, ?_, ?_, ⟨cells, chain, nodup, ?_⟩, ?_, ?_, ?_⟩ <;>
      simp only [holds, issued, become, Function.update_apply] <;> grind
  | count out room =>
    refine ⟨?_, ?_, ?_, ⟨cells, chain, nodup, ?_⟩, ?_, ?_, ?_⟩ <;>
      simp only [holds, issued, become, Function.update_apply] <;> grind
  | pop old out head =>
    rw [head] at chain
    obtain ⟨rest, rfl, tail⟩ := chain.uncons
    refine ⟨?_, ?_, ?_, ⟨rest, tail, nodup.of_cons, ?_⟩, ?_, ?_, ?_⟩ <;>
      simp only [holds, issued, become, Function.update_apply] <;> grind
  | store ret =>
    refine ⟨?_, ?_, ?_, ⟨cells, chain.congr ?_, nodup, ?_⟩, ?_, ?_, ?_⟩ <;>
      simp only [holds, issued, become, Function.update_apply] <;> grind
  | link old lk =>
    refine ⟨?_, ?_, ?_, ⟨cells, chain.congr ?_, nodup, ?_⟩, ?_, ?_, ?_⟩ <;>
      simp only [holds, issued, become, Function.update_apply] <;> grind
  | push old pu head =>
    have mine : (v.role t).holds (v.slot t) = some (v.slot t) := by rw [pu]; rfl
    -- the cell was linked to the head that is still there
    have behind : Chain (fun i => (v.node i).next) (v.node (v.slot t)).next cells := by
      rw [linked t old pu, ← head]
      exact chain
    -- and it is not on the list, for the thread holds its index
    have fresh : v.slot t ∉ cells := fun hin => (free _ hin).2.2 t mine
    refine ⟨?_, ?_, ?_, ⟨v.slot t :: cells, ⟨rfl, behind⟩, nodup.cons fresh, ?_⟩, ?_, ?_, ?_⟩ <;>
      simp only [holds, issued, become, Function.update_apply] <;> grind
end Slots

/-- The part of a state that decides who owns which slot. -/
def State.slots (s : State τ ν) : Slots τ where
  nThreads := s.nThreads
  contexts := s.contexts
  freeHead := s.freeHead
  node := s.slotNodes
  slot t := (s.ctx t).slotIndex
  role t := (s.pc t).role

/-- The head and the new head of a pending CAS of `free_slot_pop`. -/
def Pc.popping : Pc τ ν → Option (Nat × Option Nat)
  | .popCas old next => some (old, next)
  | _ => none

/-- A `free_slot_pop` whose CAS succeeds stores the `next` pointer that the head still has. -/
def FreshPop (s : State τ ν) : Label τ ν → Prop
  | .next t env => ∀ cas ∈ (s.pc t).popping, env = 0 → s.freeHead = some cas.1 →
      cas.2 = (s.slotNodes cas.1).next
  | _ => True

instance (s : State τ ν) (a : Label τ ν) : Decidable (FreshPop s a) :=
  match a with
  | .next t env => inferInstanceAs (Decidable (∀ cas ∈ (s.pc t).popping, env = 0 →
      s.freeHead = some cas.1 → cas.2 = (s.slotNodes cas.1).next))
  | .register _ | .epochEnter _ | .epochExit _ | .ebrRetire _ _ | .exit _ => isTrue trivial

theorem role_joinLists (cur : Nat) (toFree lcl : Option ν) :
    (joinLists cur toFree lcl : Pc τ ν).role = .registered := by
  cases toFree <;> cases lcl <;> rfl

variable [DecidableEq τ]

theorem slots_goto (s : State τ ν) (t : τ) (p : Pc τ ν) :
    (s.goto t p).slots = s.slots.become t p.role := by
  simp only [State.slots, State.goto, Slots.become, Slots.mk.injEq, true_and]
  funext u
  exact Function.apply_update (fun _ => Pc.role) s.pc t p u

theorem slots_setCtx (s : State τ ν) (t : τ) (c : Ctx ν) :
    (s.setCtx t c).slots =
      { s.slots with slot := Function.update s.slots.slot t c.slotIndex } := by
  simp only [State.slots, State.setCtx, Slots.mk.injEq, true_and, and_true]
  funext u
  exact Function.apply_update (fun _ => Ctx.slotIndex) s.ctx t c u

theorem Slots.become_self (v : Slots τ) (t : τ) : v.become t (v.role t) = v := by
  simp [Slots.become]

theorem slots_goto_eq (s : State τ ν) (t : τ) (p : Pc τ ν) (same : p.role = (s.pc t).role) :
    (s.goto t p).slots = s.slots := by
  rw [slots_goto, same]
  exact s.slots.become_self t

theorem slots_setCtx_eq (s : State τ ν) (t : τ) (c : Ctx ν)
    (same : c.slotIndex = (s.ctx t).slotIndex) : (s.setCtx t c).slots = s.slots := by
  rw [slots_setCtx, same]
  simp [State.slots]

/-- A step that changes neither the role nor the slot of its thread. -/
theorem Slots.Step.walk {s : State τ ν} {t : τ} {c : Ctx ν} {p : Pc τ ν} {r : Role}
    (before : (s.pc t).role = r) (after : p.role = r)
    (same : c.slotIndex = (s.ctx t).slotIndex) :
    Slots.Step s.slots t ((s.setCtx t c).goto t p).slots := by
  rw [slots_goto_eq _ _ _ (show p.role = ((s.setCtx t c).pc t).role from after.trans before.symm),
    slots_setCtx_eq _ _ _ same]
  exact .stay

theorem Slots.Step.move {s : State τ ν} {t : τ} {p : Pc τ ν} {r : Role}
    (before : (s.pc t).role = r) (after : p.role = r) :
    Slots.Step s.slots t (s.goto t p).slots := by
  rw [slots_goto_eq _ _ _ (after.trans before.symm)]
  exact .stay

theorem Slots.Step.of_eq {v w w' : Slots τ} {t : τ} (same : w' = w) (h : Slots.Step v t w) :
    Slots.Step v t w' := same ▸ h

variable [DecidableEq ν]

theorem resume_slots {threshold : Nat} {s s' : State τ ν} {t : τ} {env : Nat}
    (h : resume threshold s t env = some s') (fresh : FreshPop s (.next t env)) :
    Slots.Step s.slots t s'.slots := by
  unfold resume at h
  have role : s.slots.role t = (s.pc t).role := rfl
  cases hp : s.pc t with
  | fresh | ready | dead => simp [hp] at h
  | popNext _ | refresh | gcEpoch | gcCount _ | stackHead _ _ _ | destroy _ _ _ | pushHead =>
    simp only [hp] at h
    cases h
    exact .move (by rw [hp]; rfl) rfl
  | popHead | gcScan _ _ _ | gcCritical _ _ _ _ | gcLocal _ _ _ _ | gcCas _ | gcTail _ _ _ _ =>
    simp only [hp] at h
    repeat' split at h
    all_goals cases h
    all_goals exact .move (by rw [hp]; rfl) rfl
  | popCas old next =>
    simp only [hp] at h
    split at h
    · next hit =>
      obtain ⟨head, rfl⟩ := hit
      cases h
      -- the link that was read earlier is still that of the first cell
      obtain rfl : next = (s.slotNodes old).next :=
        fresh (old, next) (by simp [hp, Pc.popping]) rfl head
      exact .of_eq (congrArg (fun v : Slots τ => { v with freeHead := (s.slotNodes old).next }) (slots_goto s t _))
        (.pop old (by rw [role, hp]; rfl) head)
    · cases h
      exact .move (by rw [hp]; rfl) rfl
  | popIndex old =>
    simp only [hp] at h
    cases h
    exact .of_eq (slots_goto s t _) (.read old (by rw [role, hp]; rfl))
  | fetchAdd =>
    simp only [hp] at h
    split at h
    · next room =>
      cases h
      exact .of_eq (congrArg (fun v : Slots τ => { v with nThreads := s.nThreads + 1 }) (slots_goto s t _))
        (.count (by rw [role, hp]; rfl) room)
    · cases h
      exact .overflow
  | publish idx =>
    simp only [hp] at h
    cases h
    refine .of_eq ?_ (.publish idx (by rw [role, hp]; rfl))
    have moved := slots_goto (s.setCtx t { s.ctx t with slotIndex := idx }) t .enter
    rw [slots_setCtx] at moved
    exact congrArg (fun v : Slots τ => { v with contexts := Function.update s.contexts idx (some t) }) moved
  -- these write to links of nodes, not to those of the slots
  | gcJoin _ _ _ _ | stackLink _ _ _ _ =>
    simp only [hp] at h
    cases h
    exact .of_eq rfl (.move (p := _) (by rw [hp]; rfl) rfl)
  -- so does this, unless the slot is negative
  | retireLink ptr cur =>
    simp only [hp] at h
    split at h <;> cases h <;> exact .of_eq rfl (.move (p := _) (by rw [hp]; rfl) rfl)
  | enter =>
    simp only [hp] at h
    cases h
    exact .walk (by rw [hp]; rfl) rfl rfl
  | retirePush ptr cur =>
    simp only [hp] at h
    cases h
    exact .walk (by rw [hp]; rfl) rfl rfl
  | refreshStore e =>
    simp only [hp] at h
    split at h <;> cases h <;> exact .walk (by rw [hp]; rfl) rfl rfl
  | gcPop cur =>
    simp only [hp] at h
    cases h
    exact .walk (by rw [hp]; rfl) (role_joinLists ..) rfl
  | reclaim cur list =>
    simp only [hp] at h
    cases list <;> cases h <;> exact .move (by rw [hp]; rfl) rfl
  | pushIndex =>
    simp only [hp] at h
    cases h
    let i := (s.ctx t).slotIndex
    let node := Function.update s.slotNodes i { s.slotNodes i with index := i }
    exact .of_eq (congrArg (fun v : Slots τ => { v with node := node }) (slots_goto s t _))
      (.store (by rw [role, hp]; rfl))
  | pushLink old =>
    simp only [hp] at h
    cases h
    let i := (s.ctx t).slotIndex
    let node := Function.update s.slotNodes i { s.slotNodes i with next := old }
    exact .of_eq (congrArg (fun v : Slots τ => { v with node := node }) (slots_goto s t _))
      (.link old (by rw [role, hp]; rfl))
  | pushCas old =>
    simp only [hp] at h
    split at h
    · next hit =>
      cases h
      exact .of_eq (congrArg (fun v : Slots τ => { v with freeHead := some (s.ctx t).slotIndex })
        (slots_goto s t _)) (.push old (by rw [role, hp]; rfl) hit.1)
    · cases h
      exact .of_eq (slots_goto s t _) (.retry old (by rw [role, hp]; rfl))
  | drain e node =>
    simp only [hp] at h
    cases node with
    | none =>
      simp only [State.drained] at h
      split at h <;> cases h <;> exact .walk (by rw [hp]; rfl) rfl rfl
    | some node => cases h; exact .move (by rw [hp]; rfl) rfl
  | stackCas e node next old =>
    simp only [hp] at h
    split at h <;> cases h <;> exact .move (by rw [hp]; rfl) rfl

theorem act_slots {threshold : Nat} {s s' : State τ ν} {a : Label τ ν}
    (h : act threshold s a = some s') (fresh : FreshPop s a) :
    ∃ t, Slots.Step s.slots t s'.slots := by
  have role (t : τ) : s.slots.role t = (s.pc t).role := rfl
  cases a with
  | register t =>
    refine ⟨t, ?_⟩
    simp only [act] at h
    split at h
    · next hp =>
      cases h
      refine .of_eq ?_ (.clear (by rw [role, hp]; rfl))
      rw [slots_goto_eq (s.setCtx t Ctx.zero) _ _ (show _ = (s.pc t).role by rw [hp]; rfl),
        slots_setCtx]
      rfl
    · cases h
  | epochEnter t =>
    refine ⟨t, ?_⟩
    simp only [act] at h
    split at h
    · cases h
      exact .of_eq (slots_setCtx_eq s t { s.ctx t with inCritical := true } rfl) .stay
    · cases h
  | epochExit t =>
    refine ⟨t, ?_⟩
    simp only [act] at h
    split at h
    · next hp _ =>
      cases h
      refine .walk (r := .registered) (by rw [hp]; rfl) ?_ rfl
      split <;> rfl
    · cases h
  | ebrRetire t ptr =>
    refine ⟨t, ?_⟩
    simp only [act] at h
    split at h
    · next hp _ =>
      cases h
      exact .of_eq rfl (.move (p := .retireLink ptr s.epoch) (by rw [hp]; rfl) rfl)
    · cases h
  | exit t =>
    refine ⟨t, ?_⟩
    simp only [act] at h
    split at h
    · next hp _ =>
      cases h
      let contexts := Function.update s.contexts (s.ctx t).slotIndex none
      exact .of_eq (congrArg (fun v : Slots τ => { v with contexts := contexts })
        (slots_goto s t _)) (.withdraw (by rw [role, hp]; rfl))
    · cases h
  | next t env => exact ⟨t, resume_slots h fresh⟩

theorem step_slots {threshold : Nat} {s s' : State τ ν} {a : Label τ ν}
    (h : step threshold s a = some s') (fresh : FreshPop s a) :
    ∃ t, Slots.Step s.slots t s'.slots := by
  simp only [step] at h
  split at h
  · cases h
  · obtain ⟨u, hu, rfl⟩ := Option.map_eq_some_iff.mp h
    obtain ⟨t, move⟩ := act_slots hu fresh
    exact ⟨t, move⟩

omit [DecidableEq τ] [DecidableEq ν] in
theorem initial_slots (next : ν → Option ν) :
    ({ initial with gcNext := next } : State τ ν).slots.Inv where
  owned _ _ _ h _ := by cases h
  bound _ _ h := by cases h
  named _ _ := by constructor <;> intro h <;> [cases h; cases h.1]
  free := ⟨[], rfl, List.nodup_nil, by simp⟩
  index _ _ h := by cases h
  returned _ h := by rcases h with h | ⟨_, h⟩ <;> cases h
  linked _ _ h := by cases h

/-- In a run without stale pops the slots are kept apart. -/
theorem slots_inv {threshold : Nat} {s : State τ ν}
    (reached : (machine threshold τ ν).Reachable FreshPop s) : s.slots.Inv := by
  refine Machine.Reachable.invariant (I := fun s => s.slots.Inv) ?_ ?_ reached
  · rintro s ⟨next, rfl⟩
    exact initial_slots next
  · intro s a s' hi fresh h
    obtain ⟨t, move⟩ := step_slots h fresh
    exact hi.step move

end DBx1000.Epoch
