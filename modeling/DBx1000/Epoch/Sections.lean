import DBx1000.Epoch.Slots

/-!
# Critical sections and epochs

What is known about a critical section from its announcement: the epoch at the time,
the local epoch that scans will read, and that whatever was retired in an earlier epoch
was retired before. Together with the ownership of slots this says that every thread
in a critical section can be seen by a scan.

Where a thread is in a critical section is known in every run (`Within`); the order of epochs
(`Sections`) is lost when the `int` that counts them overflows.
-/

namespace DBx1000.Epoch

open Transition

variable {τ ν : Type*}

/-- Where a thread can be inside a critical section. -/
def Pc.inSection : Pc τ ν → Bool
  | .ready | .retireLink _ _ | .retirePush _ _ => true
  | _ => false

/-- In a critical section a thread is at one of these places. -/
def Within (s : State τ ν) : Prop :=
  ∀ t, (s.ctx t).inCritical = true → (s.pc t).inSection = true

structure Sections (s : State τ ν) : Prop where
  place : Within s
  bounded : s.epoch < 2 ^ 31
  lagging : ∀ t, (s.ctx t).inCritical = true → (s.ctx t).localEpoch ≤ s.enterEpoch t
  known : ∀ t, (s.ctx t).localEpoch ≤ s.epoch
  entered : ∀ t, s.enterEpoch t ≤ s.epoch
  loaded : ∀ t e, s.pc t = .refreshStore e → e ≤ s.epoch
  past : ∀ n r, s.retiredAt n = some r → r < s.clock ∧ s.retireEpoch n ≤ s.epoch
  order : ∀ n r t, s.retiredAt n = some r → s.retireEpoch n < s.enterEpoch t → r < s.enteredAt t

/-- What sections and retirements leave behind. -/
def State.times (s : State τ ν) :=
  (s.epoch, s.clock, s.enterEpoch, s.enteredAt, s.retireEpoch, s.retiredAt)

theorem Within.outside {s : State τ ν} (hi : Within s) {t : τ}
    (away : (s.pc t).inSection = false) : (s.ctx t).inCritical = false := by
  by_contra h
  rw [hi t (by simpa using h)] at away
  cases away

theorem Within.init (next : ν → Option ν) : Within ({ initial with gcNext := next } : State τ ν) :=
  fun _ h => by cases h

namespace Sections

theorem init (next : ν → Option ν) : Sections ({ initial with gcNext := next } : State τ ν) where
  place := .init next
  bounded := Nat.two_pow_pos 31
  lagging _ h := by cases h
  known _ := Nat.le_refl _
  entered _ := Nat.le_refl _
  loaded _ _ h := by cases h
  past _ _ h := by cases h
  order _ _ _ h := by cases h

end Sections

variable [DecidableEq τ] [DecidableEq ν]

/-- What a step of thread `t` can do to critical sections and epochs: nothing or less, begin
a section, move the epoch on, retire a node. -/
inductive Event (s : State τ ν) (t : τ) (s' : State τ ν) : Prop
  | walk (c : Ctx ν) (p : Pc τ ν) (pc : s'.pc = Function.update s.pc t p)
      (ctx : s'.ctx = Function.update s.ctx t c) (times : s'.times = s.times)
      (inside : c.inCritical = true → (s.ctx t).inCritical = true ∧ p.inSection = true ∧
        c.localEpoch = (s.ctx t).localEpoch ∧ c.slotIndex = (s.ctx t).slotIndex)
      (known : c.localEpoch = (s.ctx t).localEpoch ∨ c.localEpoch = 0 ∨
        s.pc t = .refreshStore c.localEpoch)
      (loaded : ∀ e, p = .refreshStore e → e = s.epoch)
  | announce (pc : s'.pc = Function.update s.pc t .ready)
      (ctx : s'.ctx = Function.update s.ctx t { s.ctx t with inCritical := true })
      (times : s'.times = (s.epoch, s.clock, Function.update s.enterEpoch t s.epoch,
        Function.update s.enteredAt t s.clock, s.retireEpoch, s.retiredAt))
  | advance (before : s.pc t = .gcCas s.epoch)
      (pc : s'.pc = Function.update s.pc t (.gcPop s.epoch)) (ctx : s'.ctx = s.ctx)
      (outside : (s.ctx t).inCritical = false)
      (times : s'.times = ((s.epoch + 1) % 2 ^ 32, s.clock, s.enterEpoch, s.enteredAt, s.retireEpoch,
        s.retiredAt))
  | retire (ptr : ν) (pc : s'.pc = Function.update s.pc t (.retireLink ptr s.epoch))
      (ctx : s'.ctx = s.ctx)
      (times : s'.times = (s.epoch, s.clock, s.enterEpoch, s.enteredAt,
        Function.update s.retireEpoch ptr s.epoch, Function.update s.retiredAt ptr (some s.clock)))

variable {s s' : State τ ν} {t : τ} {threshold : Nat}

/-! ### Events keep the invariants -/

omit [DecidableEq ν] in
theorem Within.event [DecidableEq ν] (hi : Within s) (e : Event s t s') : Within s' := by
  intro u h
  cases e with
  | walk c p pc ctx times inside known loaded =>
    rw [pc, Function.update_apply]
    rw [ctx, Function.update_apply] at h
    split
    · next e => rw [if_pos e] at h; exact (inside h).2.1
    · next e => rw [if_neg e] at h; exact hi u h
  | announce pc ctx times =>
    rw [pc, Function.update_apply]
    rw [ctx, Function.update_apply] at h
    split
    · rfl
    · next e => rw [if_neg e] at h; exact hi u h
  -- a thread that collects is in no section
  | advance before pc ctx outside times =>
    rw [ctx] at h
    rw [pc, Function.update_apply]
    split
    · next e => subst e; rw [outside] at h; cases h
    · exact hi u h
  | retire ptr pc ctx times =>
    rw [ctx] at h
    rw [pc, Function.update_apply]
    split
    · rfl
    · exact hi u h

namespace Sections

omit [DecidableEq ν] in
theorem walk (hi : Sections s) (place : Within s') {c : Ctx ν} {p : Pc τ ν}
    (pc : s'.pc = Function.update s.pc t p) (ctx : s'.ctx = Function.update s.ctx t c)
    (times : s'.times = s.times)
    (inside : c.inCritical = true → (s.ctx t).inCritical = true ∧ p.inSection = true ∧
      c.localEpoch = (s.ctx t).localEpoch ∧ c.slotIndex = (s.ctx t).slotIndex)
    (known : c.localEpoch ≤ s.epoch) (loaded : ∀ e, p = .refreshStore e → e ≤ s.epoch) :
    Sections s' := by
  simp only [State.times, Prod.mk.injEq] at times
  obtain ⟨he, hc, hee, hea, hre, hra⟩ := times
  constructor
  case place => exact place
  case bounded => exact he ▸ hi.bounded
  -- a section that goes on keeps the epoch it was entered with
  case lagging =>
    intro u h
    rw [ctx, Function.update_apply] at h ⊢
    rw [hee]
    split
    · next e =>
      subst e
      rw [if_pos rfl] at h
      rw [(inside h).2.2.1]
      exact hi.lagging u (inside h).1
    · next e => rw [if_neg e] at h; exact hi.lagging u h
  case known =>
    intro u
    rw [ctx, Function.update_apply, he]
    split
    · exact known
    · exact hi.known u
  case entered =>
    intro u
    rw [he, hee]; exact hi.entered u
  case loaded =>
    intro u e h
    rw [pc, Function.update_apply] at h
    rw [he]
    split at h
    · exact loaded e h
    · exact hi.loaded u e h
  case past =>
    intro n r h
    rw [hra] at h
    rw [hc, hre, he]
    exact hi.past n r h
  case order =>
    intro n r u h later
    rw [hra] at h
    rw [hre, hee] at later
    rw [hea]
    exact hi.order n r u h later

omit [DecidableEq ν] in
theorem announce (hi : Sections s) (place : Within s')
    (pc : s'.pc = Function.update s.pc t .ready)
    (ctx : s'.ctx = Function.update s.ctx t { s.ctx t with inCritical := true })
    (times : s'.times = (s.epoch, s.clock, Function.update s.enterEpoch t s.epoch,
      Function.update s.enteredAt t s.clock, s.retireEpoch, s.retiredAt)) : Sections s' := by
  simp only [State.times, Prod.mk.injEq] at times
  obtain ⟨he, hc, hee, hea, hre, hra⟩ := times
  constructor
  case place => exact place
  case bounded => exact he ▸ hi.bounded
  case lagging =>
    intro u h
    rw [ctx, Function.update_apply] at h ⊢
    rw [hee, Function.update_apply]
    split
    · exact hi.known t
    · next e => rw [if_neg e] at h; exact hi.lagging u h
  case known =>
    intro u
    rw [ctx, Function.update_apply, he]
    split
    · exact hi.known t
    · exact hi.known u
  case entered =>
    intro u
    rw [hee, he, Function.update_apply]
    split
    · exact Nat.le_refl _
    · exact hi.entered u
  case loaded =>
    intro u e h
    rw [pc, Function.update_apply] at h
    rw [he]
    split at h
    · cases h
    · exact hi.loaded u e h
  case past =>
    intro n r h
    rw [hra] at h
    rw [hc, hre, he]
    exact hi.past n r h
  -- the section is entered now, after all that has been retired
  case order =>
    intro n r u h later
    rw [hra] at h
    rw [hre, hee, Function.update_apply] at later
    rw [hea, Function.update_apply]
    split
    · exact (hi.past n r h).1
    · next e => rw [if_neg e] at later; exact hi.order n r u h later

omit [DecidableEq ν] in
theorem advance (hi : Sections s) (place : Within s') {cur : Nat} (room : s.epoch + 1 < 2 ^ 31)
    (pc : s'.pc = Function.update s.pc t (.gcPop cur)) (ctx : s'.ctx = s.ctx)
    (times : s'.times = (s.epoch + 1, s.clock, s.enterEpoch, s.enteredAt, s.retireEpoch,
      s.retiredAt)) : Sections s' := by
  simp only [State.times, Prod.mk.injEq] at times
  obtain ⟨he, hc, hee, hea, hre, hra⟩ := times
  constructor
  case place => exact place
  case bounded => exact he ▸ room
  case lagging =>
    intro u h
    rw [ctx] at h ⊢
    rw [hee]
    exact hi.lagging u h
  -- the epoch only grows
  case known =>
    intro u
    rw [ctx, he]; exact Nat.le_succ_of_le (hi.known u)
  case entered =>
    intro u
    rw [hee, he]; exact Nat.le_succ_of_le (hi.entered u)
  case loaded =>
    intro u e h
    rw [pc, Function.update_apply] at h
    rw [he]
    split at h
    · cases h
    · exact Nat.le_succ_of_le (hi.loaded u e h)
  case past =>
    intro n r h
    rw [hra] at h
    rw [hc, hre, he]
    exact ⟨(hi.past n r h).1, Nat.le_succ_of_le (hi.past n r h).2⟩
  case order =>
    intro n r u h later
    rw [hra] at h
    rw [hre, hee] at later
    rw [hea]
    exact hi.order n r u h later

/-- No section began after the retirement of `ptr` in an epoch later than the current one. -/
theorem retire (hi : Sections s) (place : Within s') {ptr : ν}
    (pc : s'.pc = Function.update s.pc t (.retireLink ptr s.epoch)) (ctx : s'.ctx = s.ctx)
    (times : s'.times = (s.epoch, s.clock, s.enterEpoch, s.enteredAt,
      Function.update s.retireEpoch ptr s.epoch, Function.update s.retiredAt ptr (some s.clock))) :
    Sections { s' with clock := s'.clock + 1 } := by
  simp only [State.times, Prod.mk.injEq] at times
  obtain ⟨he, hc, hee, hea, hre, hra⟩ := times
  refine ⟨place, he ▸ hi.bounded, fun u h => ?_, fun u => ?_, fun u => ?_, fun u e h => ?_,
    fun n r h => ?_, fun n r u h later => ?_⟩ <;>
    simp only [ctx, hee, he, hre, hra, hea, hc, pc] at *
  · exact hi.lagging u h
  · exact hi.known u
  · exact hi.entered u
  · rw [Function.update_apply] at h
    split at h
    · cases h
    · exact hi.loaded u e h
  · rw [Function.update_apply] at h ⊢
    split at h
    · next e =>
      cases h
      rw [if_pos e]
      exact ⟨Nat.lt_succ_self _, Nat.le_refl _⟩
    · next e =>
      rw [if_neg e]
      exact ⟨Nat.lt_succ_of_lt (hi.past n r h).1, (hi.past n r h).2⟩
  · -- no section has been entered at a later epoch than the one of the node
    rw [Function.update_apply] at h later
    split at h
    · next e =>
      rw [if_pos e] at later
      exact absurd later (Nat.not_lt.mpr (hi.entered u))
    · next e =>
      rw [if_neg e] at later
      exact hi.order n r u h later

omit [DecidableEq τ] [DecidableEq ν] in
theorem tick (hi : Sections s) : Sections { s with clock := s.clock + 1 } where
  place := hi.place
  bounded := hi.bounded
  lagging := hi.lagging
  known := hi.known
  entered := hi.entered
  loaded := hi.loaded
  past n r h := ⟨Nat.lt_succ_of_lt (hi.past n r h).1, (hi.past n r h).2⟩
  order := hi.order

/-- The order of epochs is kept unless the step makes their `int` overflow. -/
theorem event (hi : Sections s) (e : Event s t s')
    (room : s.pc t = .gcCas s.epoch → s.epoch + 1 < 2 ^ 31) :
    Sections { s' with clock := s'.clock + 1 } := by
  have place := hi.place.event e
  cases e with
  | walk c p pc ctx times inside known loaded =>
    refine (hi.walk place pc ctx times inside ?_ fun e h => Nat.le_of_eq (loaded e h)).tick
    rcases known with same | zero | stored
    · exact same ▸ hi.known t
    · exact zero ▸ Nat.zero_le _
    · exact hi.loaded t _ stored
  | announce pc ctx times => exact (hi.announce place pc ctx times).tick
  | advance before pc ctx outside times =>
    have room := room before
    rw [Nat.mod_eq_of_lt (by omega)] at times
    exact (hi.advance place room pc ctx times).tick
  | retire ptr pc ctx times => exact hi.retire place pc ctx times

end Sections

namespace Within

/-! ### The events of the steps -/

/-- A step that leaves the context of its thread alone. -/
theorem move (hi : Within s) {p : Pc τ ν} (pc : s'.pc = Function.update s.pc t p)
    (ctx : s'.ctx = s.ctx) (times : s'.times = s.times)
    (inside : p.inSection = true ∨ (s.pc t).inSection = false)
    (loaded : ∀ e, p = .refreshStore e → e = s.epoch) : Event s t s' := by
  refine .walk (s.ctx t) p pc (by simpa using ctx) times (fun h => ⟨h, ?_, rfl, rfl⟩)
    (.inl rfl) loaded
  rcases inside with h' | away
  · exact h'
  · rw [hi.outside away] at h; cases h

/-- A step outside critical sections. -/
theorem quiet (hi : Within s) {c : Ctx ν} {p : Pc τ ν} (pc : s'.pc = Function.update s.pc t p)
    (ctx : s'.ctx = Function.update s.ctx t c) (times : s'.times = s.times)
    (away : (s.pc t).inSection = false) (same : c.inCritical = (s.ctx t).inCritical)
    (known : c.localEpoch = (s.ctx t).localEpoch ∨ c.localEpoch = 0 ∨
      s.pc t = .refreshStore c.localEpoch) (loaded : ∀ e, p = .refreshStore e → e = s.epoch) :
    Event s t s' := by
  refine .walk c p pc ctx times (fun h => ?_) known loaded
  rw [same, hi.outside away] at h
  cases h

theorem resume (hi : Within s) {env : Nat} (h : Epoch.resume threshold s t env = some s') :
    Event s t s' := by
  unfold Epoch.resume at h
  cases hp : s.pc t with
  | fresh | ready | dead => simp [hp] at h
  -- these steps neither enter nor leave a section
  | popNext _ | popIndex _ | gcEpoch | gcCount _ | stackHead _ _ _ | destroy _ _ _ |
      pushIndex | stackLink _ _ _ _ | gcJoin _ _ _ _ | popCas _ _ | gcScan _ _ _ |
      popHead | gcCritical _ _ _ _ | gcLocal _ _ _ _ | gcTail _ _ _ _ | pushLink _ |
      pushHead | pushCas _ | stackCas _ _ _ _ =>
    simp only [hp] at h
    repeat' split at h
    all_goals cases h
    all_goals exact hi.move rfl rfl rfl (.inr (by rw [hp]; rfl)) (fun _ h => by cases h)
  | fetchAdd =>
    simp only [hp] at h
    split at h <;> cases h
    · exact hi.move rfl rfl rfl (.inr (by rw [hp]; rfl)) (fun _ h => by cases h)
    · exact hi.move (Function.update_eq_self t s.pc).symm rfl rfl (.inr (by rw [hp]; rfl))
        (by simp [hp])
  | enter =>
    simp only [hp] at h
    cases h
    exact .announce rfl rfl rfl
  | retireLink ptr cur =>
    simp only [hp] at h
    split at h <;> cases h <;> exact hi.move rfl rfl rfl (.inl rfl) (fun _ h => by cases h)
  | retirePush ptr cur =>
    simp only [hp] at h
    cases h
    exact .walk _ _ rfl rfl rfl (fun h => ⟨h, rfl, rfl, rfl⟩) (.inl rfl) (fun _ h => by cases h)
  | publish idx =>
    simp only [hp] at h
    cases h
    exact hi.quiet rfl rfl rfl (by rw [hp]; rfl) rfl (.inl rfl) (fun _ h => by cases h)
  | refresh =>
    simp only [hp] at h
    cases h
    exact hi.move rfl rfl rfl (.inr (by rw [hp]; rfl)) (fun e h => by cases h; rfl)
  | refreshStore e =>
    simp only [hp] at h
    split at h <;> cases h <;>
      exact hi.quiet rfl rfl rfl (by rw [hp]; rfl) rfl (.inr (.inr hp)) (fun _ h => by cases h)
  -- the epoch is won or not
  | gcCas cur =>
    simp only [hp] at h
    split at h
    · next same =>
      cases h
      subst same
      exact .advance hp rfl rfl (hi.outside (by rw [hp]; rfl)) rfl
    · cases h
      exact hi.move rfl rfl rfl (.inl rfl) (fun _ h => by cases h)
  | gcPop cur =>
    simp only [hp] at h
    cases h
    refine hi.quiet rfl rfl rfl (by rw [hp]; rfl) rfl (.inl rfl) fun e h => ?_
    cases hf : s.retired (rslot cur) <;> cases hl : (s.ctx t).pending (rslot cur) <;>
      simp [hf, hl, joinLists] at h
  | reclaim cur list =>
    simp only [hp] at h
    cases list <;> cases h <;> exact hi.move rfl rfl rfl (.inr (by rw [hp]; rfl)) (fun _ h => by cases h)
  | drain e node =>
    simp only [hp] at h
    cases node with
    | none =>
      simp only [State.drained] at h
      split at h <;> cases h <;>
        exact hi.quiet rfl rfl rfl (by rw [hp]; rfl) rfl (.inl rfl) (fun _ h => by cases h)
    | some node => cases h; exact hi.move rfl rfl rfl (.inr (by rw [hp]; rfl)) (fun _ h => by cases h)

theorem act (hi : Within s) {a : Label τ ν} (h : Epoch.act threshold s a = some s') :
    Event s a.thread s' := by
  cases a with
  | register t =>
    simp only [Epoch.act] at h
    split at h
    · next hp =>
      cases h
      exact .walk _ _ rfl rfl rfl (fun h => by cases h) (.inr (.inl rfl)) (fun _ h => by cases h)
    · cases h
  | epochEnter t =>
    simp only [Epoch.act] at h
    split at h
    · next hp _ =>
      cases h
      refine .announce ?_ rfl rfl
      rw [← hp]
      exact (Function.update_eq_self t s.pc).symm
    · cases h
  | epochExit t =>
    simp only [Epoch.act] at h
    split at h
    · cases h
      exact .walk _ _ rfl rfl rfl (fun h => by cases h) (.inl rfl) (fun e h => by split at h <;> cases h)
    · cases h
  | ebrRetire t ptr =>
    simp only [Epoch.act] at h
    split at h
    · cases h
      exact .retire ptr rfl rfl rfl
    · cases h
  | exit t =>
    simp only [Epoch.act] at h
    split at h
    · next hp out =>
      cases h
      refine .walk (s.ctx t) _ rfl (Function.update_eq_self t s.ctx).symm rfl ?_ (.inl rfl)
        (fun _ h => by cases h)
      simp [out]
    · cases h
  | next t env => exact hi.resume h

theorem step (hi : Within s) {a : Label τ ν} (h : Epoch.step threshold s a = some s') :
    Within s' := by
  simp only [Epoch.step] at h
  split at h
  · cases h
  · obtain ⟨u, hu, rfl⟩ := Option.map_eq_some_iff.mp h
    have within : Within u := hi.event (hi.act hu)
    exact within

theorem of_reachable {ok : State τ ν → Label τ ν → Prop}
    (reached : (machine threshold τ ν).Reachable ok s) : Within s := by
  refine reached.invariant ?_ (fun s a s' hi _ h => hi.step h)
  rintro s ⟨next, rfl⟩
  exact init next

end Within

theorem Sections.step (hi : Sections s) {a : Label τ ν} (h : Epoch.step threshold s a = some s')
    (room : s.pc a.thread = .gcCas s.epoch → s.epoch + 1 < 2 ^ 31) : Sections s' := by
  simp only [Epoch.step] at h
  split at h
  · cases h
  · obtain ⟨u, hu, rfl⟩ := Option.map_eq_some_iff.mp h
    exact hi.event (hi.place.act hu) room

/-! ### Every live registered thread owns its context slot -/

/-- Between its store to `g_contexts` and its exit. -/
def State.registered (s : State τ ν) (t : τ) : Prop := (s.pc t).role = .registered

/-- Every registered thread has a slot of its own, `g_contexts` names exactly the
owners, and a scan of the first `g_n_threads` contexts meets every thread that is in a
critical section. -/
structure OwnSlots (s : State τ ν) : Prop where
  distinct : ∀ t u, s.registered t → s.registered u →
    (s.ctx t).slotIndex = (s.ctx u).slotIndex → t = u
  named : ∀ i t, s.contexts i = some t ↔ s.registered t ∧ (s.ctx t).slotIndex = i
  seen : ∀ t, (s.ctx t).inCritical = true → (s.ctx t).slotIndex < s.nThreads ∧
    (s.ctx t).slotIndex < ebrMaxThreads ∧ s.contexts (s.ctx t).slotIndex = some t

omit [DecidableEq τ] [DecidableEq ν] in
theorem registered_of_inSection {p : Pc τ ν} (h : p.inSection = true) : p.role = .registered := by
  cases p <;> first | rfl | cases h

omit [DecidableEq τ] [DecidableEq ν] in
theorem Slots.Inv.holds_of_registered {s : State τ ν} {t : τ} (h : s.registered t) :
    s.slots.holds t = some (s.ctx t).slotIndex := by
  simp only [Slots.holds, State.slots]
  rw [h]
  rfl

variable {threshold : Nat} {s : State τ ν}

/-- The slots stay apart in every run in which no `free_slot_pop` succeeds with a stale
`next` pointer. -/
theorem own_slots (reached : (machine threshold τ ν).Reachable FreshPop s) : OwnSlots s := by
  have slots := slots_inv reached
  have within := Within.of_reachable reached
  refine ⟨fun t u ht hu same => ?_, slots.named, fun t critical => ?_⟩
  · refine slots.owned t u _ (Slots.Inv.holds_of_registered ht) ?_
    rw [same]
    exact Slots.Inv.holds_of_registered hu
  · have ht : s.registered t := registered_of_inSection (within t critical)
    have issued := slots.bound t _ (Slots.Inv.holds_of_registered ht)
    exact ⟨issued.1, issued.2, (slots.named _ t).mpr ⟨ht, rfl⟩⟩

/-- The labels of thread `t` from its first `epoch_enter` into the critical section, with an
empty free list, -/
def joins (t : τ) : List (Label τ ν) :=
  [.register t, .next t 0, .next t 0, .next t 0, .next t 0]

/-- with a free slot, -/
def joinsAgain (t : τ) : List (Label τ ν) :=
  [.register t, .next t 0, .next t 0, .next t 0, .next t 0, .next t 0, .next t 0]

/-- and from the critical section to the release of its slot. -/
def leaves (t : τ) : List (Label τ ν) :=
  [.epochExit t, .exit t, .next t 0, .next t 0, .next t 0, .next t 0]

/-- Two threads register, one exits, and a third one takes over its slot. -/
theorem own_slots_reused : ∃ s : State (Fin 3) Unit,
    ((s.ctx 2).slotIndex = 0 ∧ s.nThreads = 2) ∧ OwnSlots s := by
  obtain ⟨s, run, view⟩ := (machine 256 (Fin 3) Unit).exists_along FreshPop
    initial (joins 0 ++ joins 1 ++ leaves 0 ++ joinsAgain 2)
    (fun s => ((s.ctx 2).slotIndex, s.nThreads)) (0, 2) (by decide)
  obtain ⟨slot, count⟩ := Prod.mk.inj view
  exact ⟨s, ⟨slot, count⟩, own_slots ⟨initial, _, ⟨_, rfl⟩, run⟩⟩

/-- Thread 2 stalls before the CAS of its pop, having read that slot 0 follows slot 1.
Threads 3 and 4 take both slots and thread 3 gives slot 1 back, so the CAS succeeds and
puts slot 0 back into the free list, although thread 4 is in a critical section with it.
Thread 5 gets it too and replaces thread 4 in `g_contexts`. -/
theorem stale_pop_shares_slot : ¬ ∀ s : State (Fin 6) Unit,
    (machine 256 (Fin 6) Unit).Reachable Free s → OwnSlots s := by
  intro always
  obtain ⟨s, run, view⟩ := (machine 256 (Fin 6) Unit).exists_along Free
    initial (joins 0 ++ joins 1 ++ leaves 0 ++ leaves 1 ++
      [.register 2, .next 2 0, .next 2 0] ++ joinsAgain 3 ++ joinsAgain 4 ++ leaves 3 ++
      [.next 2 0] ++ joinsAgain 5)
    (fun s => ((s.ctx 4).inCritical, (s.ctx 5).inCritical, (s.ctx 4).slotIndex,
      (s.ctx 5).slotIndex))
    (true, true, 0, 0) (by decide)
  simp only [Prod.mk.injEq] at view
  obtain ⟨in4, in5, slot4, slot5⟩ := view
  have own := always s ⟨initial, _, ⟨_, rfl⟩, run⟩
  have h4 := (own.seen 4 in4).2.2
  have h5 := (own.seen 5 in5).2.2
  rw [slot4] at h4
  rw [slot5, h4] at h5
  simp at h5

end DBx1000.Epoch
