import DBx1000.Epoch.Sections

/-!
# What a scan establishes

A thread that has passed its scan for epoch `cur` knows that no section is left that
began before that epoch. The scan runs while threads enter, leave, register and exit.
-/

namespace DBx1000.Epoch

open Transition

variable {τ ν : Type*}

/-- In a critical section that began before epoch `cur`. -/
def State.stale (s : State τ ν) (cur : Nat) (u : τ) : Prop :=
  (s.ctx u).inCritical = true ∧ s.enterEpoch u < cur

/-- Every stale section belongs to a context that the scan has yet to examine. -/
def State.ahead (s : State τ ν) (cur n i : Nat) : Prop :=
  ∀ u, s.stale cur u → i ≤ (s.ctx u).slotIndex ∧ (s.ctx u).slotIndex < n

def Scanned (s : State τ ν) : Pc τ ν → Prop
  | .gcCount cur => cur ≤ s.epoch
  | .gcScan cur n i => cur ≤ s.epoch ∧ s.ahead cur n i
  | .gcCritical cur n i ctx | .gcLocal cur n i ctx => cur ≤ s.epoch ∧ s.ahead cur n i ∧
      ∀ u, s.stale cur u → (s.ctx u).slotIndex = i → u = ctx
  | .gcCas cur | .gcPop cur | .gcTail cur _ _ _ | .gcJoin cur _ _ _ | .reclaim cur _ |
      .destroy cur _ _ => cur ≤ s.epoch ∧ ∀ u, ¬ s.stale cur u
  | _ => True

/-- No stale section comes up and none changes its slot. -/
structure Fades (s s' : State τ ν) : Prop where
  epoch : s.epoch ≤ s'.epoch
  stale : ∀ cur u, cur ≤ s.epoch → s'.stale cur u →
    s.stale cur u ∧ (s'.ctx u).slotIndex = (s.ctx u).slotIndex

theorem Fades.ahead {s s' : State τ ν} (f : Fades s s') {cur n i : Nat} (hc : cur ≤ s.epoch)
    (h : s.ahead cur n i) : s'.ahead cur n i := by
  intro u hu
  obtain ⟨before, same⟩ := f.stale cur u hc hu
  rw [same]
  exact h u before

theorem Fades.scanned {s s' : State τ ν} (f : Fades s s') {p : Pc τ ν} (h : Scanned s p) :
    Scanned s' p := by
  cases p with
  | gcCount cur => exact Nat.le_trans h f.epoch
  | gcScan cur n i => exact ⟨Nat.le_trans h.1 f.epoch, f.ahead h.1 h.2⟩
  | gcCritical cur n i ctx | gcLocal cur n i ctx =>
    refine ⟨Nat.le_trans h.1 f.epoch, f.ahead h.1 h.2.1, fun u hu at_i => ?_⟩
    obtain ⟨before, same⟩ := f.stale cur u h.1 hu
    exact h.2.2 u before (same ▸ at_i)
  | gcCas cur | gcPop cur | gcTail cur _ _ _ | gcJoin cur _ _ _ | reclaim cur _
      | destroy cur _ _ =>
    exact ⟨Nat.le_trans h.1 f.epoch, fun u hu => h.2 u (f.stale cur u h.1 hu).1⟩
  | _ => trivial

variable [DecidableEq τ] [DecidableEq ν]

theorem Event.fades {s s' : State τ ν} {t : τ} (e : Event s t s')
    (room : s.pc t = .gcCas s.epoch → s.epoch + 1 < 2 ^ 31) : Fades s s' := by
  cases e with
  | walk c p pc ctx times inside known loaded =>
    simp only [State.times, Prod.mk.injEq] at times
    refine ⟨Nat.le_of_eq times.1.symm, fun cur u hc hu => ?_⟩
    simp only [State.stale, ctx, times.2.2.1, Function.update_apply] at hu ⊢
    split at hu
    · next e =>
      subst e
      obtain ⟨was, -, -, slot⟩ := inside hu.1
      exact ⟨⟨was, hu.2⟩, by rw [if_pos rfl, slot]⟩
    · next e => exact ⟨hu, by rw [if_neg e]⟩
  | announce pc ctx times =>
    simp only [State.times, Prod.mk.injEq] at times
    refine ⟨Nat.le_of_eq times.1.symm, fun cur u hc hu => ?_⟩
    simp only [State.stale, ctx, times.2.2.1, Function.update_apply] at hu ⊢
    split at hu
    · next e =>
      subst e
      exact absurd hu.2 (Nat.not_lt.mpr hc)
    · next e => exact ⟨hu, by rw [if_neg e]⟩
  | advance before pc ctx outside times =>
    have room := room before
    simp only [State.times, Prod.mk.injEq] at times
    refine ⟨by rw [times.1, Nat.mod_eq_of_lt (by omega)]; exact Nat.le_succ _, fun cur u hc hu => ?_⟩
    simp only [State.stale, ctx, times.2.2.1] at hu ⊢
    exact ⟨hu, trivial⟩
  | retire ptr pc ctx times =>
    simp only [State.times, Prod.mk.injEq] at times
    refine ⟨Nat.le_of_eq times.1.symm, fun cur u hc hu => ?_⟩
    simp only [State.stale, ctx, times.2.2.1] at hu ⊢
    exact ⟨hu, trivial⟩

omit [DecidableEq τ] [DecidableEq ν] in
theorem State.ahead.skip {s : State τ ν} {cur n i : Nat} (ahead : s.ahead cur n i)
    (none_here : ∀ u, s.stale cur u → (s.ctx u).slotIndex ≠ i) : s.ahead cur n (i + 1) := by
  intro u hu
  have := ahead u hu
  have := none_here u hu
  omega

omit [DecidableEq τ] [DecidableEq ν] in
/-- `g_contexts` names every thread in a critical section. -/
theorem named_of_critical {s : State τ ν} (slots : s.slots.Inv) (sections : Sections s) {u : τ}
    (critical : (s.ctx u).inCritical = true) : s.contexts (s.ctx u).slotIndex = some u :=
  (slots.named _ u).mpr ⟨registered_of_inSection (sections.place u critical), rfl⟩

omit [DecidableEq τ] [DecidableEq ν] in
/-- The context of a thread in a critical section has not been freed. -/
theorem read_of_critical {s : State τ ν} (sections : Sections s) {u : τ} (env : Nat)
    (critical : (s.ctx u).inCritical = true) :
    s.readCritical u env = true ∧ s.readLocal u env = (s.ctx u).localEpoch := by
  have inside := sections.place u critical
  unfold State.readCritical State.readLocal
  cases hp : s.pc u <;> simp [hp, Pc.inSection] at inside <;> exact ⟨critical, rfl⟩

omit [DecidableEq τ] [DecidableEq ν] in
theorem scanned_joinLists {s : State τ ν} {cur : Nat} (h : Scanned s (.gcPop cur))
    (toFree lcl : Option ν) : Scanned s (joinLists cur toFree lcl) := by
  cases toFree <;> cases lcl <;> exact h

/-- One step of a scanning thread, with the slots of all threads apart. -/
theorem resume_scanned {threshold : Nat} {s s' : State τ ν} {t : τ} {env : Nat}
    (slots : s.slots.Inv) (sections : Sections s) (scanned : Scanned s (s.pc t))
    (h : resume threshold s t env = some s') : Scanned s (s'.pc t) := by
  unfold resume at h
  cases hp : s.pc t with
  | fresh | ready | dead => simp [hp] at h
  | popNext _ | popIndex _ | popHead | popCas _ _ | pushLink _ | pushHead | pushCas _ |
      fetchAdd | stackHead _ _ _ | stackLink _ _ _ _ | stackCas _ _ _ _ | retireLink _ _ |
      pushIndex | publish _ | enter | retirePush _ _ | refresh | refreshStore _ =>
    simp only [hp] at h
    repeat' split at h
    all_goals cases h
    all_goals simp [State.goto, Scanned, hp]
  | gcEpoch =>
    simp only [hp] at h
    cases h
    simp [State.goto, Scanned]
  | gcCount cur =>
    simp only [hp] at h scanned
    cases h
    simp only [State.goto, Function.update_self]
    refine ⟨scanned, fun u hu => ⟨Nat.zero_le _, ?_⟩⟩
    have registered := registered_of_inSection (sections.place u hu.1)
    exact (slots.bound u _ (Slots.Inv.holds_of_registered registered)).1
  | gcScan cur n i =>
    simp only [hp] at h scanned
    obtain ⟨hc, ahead⟩ := scanned
    split at h
    · split at h
      · next empty =>
        cases h
        simp only [State.goto, Function.update_self]
        refine ⟨hc, ahead.skip fun u hu at_i => ?_⟩
        have named := named_of_critical slots sections hu.1
        rw [at_i, empty] at named
        cases named
      · next ctx named =>
        cases h
        simp only [State.goto, Function.update_self]
        refine ⟨hc, ahead, fun u hu at_i => ?_⟩
        have own := named_of_critical slots sections hu.1
        rw [at_i, named] at own
        exact (Option.some.inj own).symm
    · cases h
      simp only [State.goto, Function.update_self]
      refine ⟨hc, fun u hu => ?_⟩
      have := ahead u hu
      omega
  | gcCritical cur n i ctx =>
    simp only [hp] at h scanned
    obtain ⟨hc, ahead, only⟩ := scanned
    split at h <;> cases h <;> simp only [State.goto, Function.update_self]
    · exact ⟨hc, ahead, only⟩
    · next out =>
      refine ⟨hc, ahead.skip fun u hu at_i => out ?_⟩
      rw [← only u hu at_i]
      exact (read_of_critical sections env hu.1).1
  | gcLocal cur n i ctx =>
    simp only [hp] at h scanned
    obtain ⟨hc, ahead, only⟩ := scanned
    split at h <;> cases h <;> simp only [State.goto, Function.update_self]
    · trivial
    · next same =>
      -- a section that shows the local epoch `cur` did not begin before epoch `cur`
      refine ⟨hc, ahead.skip fun u hu at_i => same ?_⟩
      rw [← only u hu at_i, (read_of_critical sections env hu.1).2]
      exact Nat.ne_of_lt (Nat.lt_of_le_of_lt (sections.lagging u hu.1) hu.2)
  | gcCas cur =>
    simp only [hp] at h scanned
    split at h <;> cases h <;> simp only [State.goto, Function.update_self]
    · exact scanned
    · trivial
  | gcPop cur =>
    simp only [hp] at h scanned
    cases h
    simp only [State.goto, Function.update_self]
    exact scanned_joinLists scanned _ _
  | gcTail cur toFree tail lcl =>
    simp only [hp] at h scanned
    split at h <;> cases h <;> simp only [State.goto, Function.update_self] <;> exact scanned
  | gcJoin cur toFree tail lcl =>
    simp only [hp] at h scanned
    cases h
    simp only [State.goto, Function.update_self]
    exact scanned
  | reclaim cur list =>
    simp only [hp] at h scanned
    cases list <;> cases h <;> simp only [State.goto, Function.update_self] <;> trivial
  | destroy cur list next =>
    simp only [hp] at h scanned
    cases h
    simp only [State.goto, Function.update_self]
    exact scanned
  | drain e node =>
    simp only [hp] at h
    cases node with
    | none =>
      simp only [State.drained] at h
      split at h <;> cases h <;> simp [State.goto, Scanned]
    | some node => cases h; simp [State.goto, Scanned]

theorem Event.pc_of_ne {s s' : State τ ν} {t u : τ} (e : Event s t s') (other : u ≠ t) :
    s'.pc u = s.pc u := by
  cases e with
  | walk c p pc => rw [pc, Function.update_of_ne other]
  | announce pc => rw [pc, Function.update_of_ne other]
  | advance before pc => rw [pc, Function.update_of_ne other]
  | retire ptr pc => rw [pc, Function.update_of_ne other]

/-- Where a thread gets by a call. -/
theorem act_scanned {threshold : Nat} {s s' : State τ ν} {a : Label τ ν}
    (slots : s.slots.Inv) (sections : Sections s) (scanned : ∀ u, Scanned s (s.pc u))
    (h : act threshold s a = some s') (u : τ) : Scanned s (s'.pc u) := by
  have called {t : τ} {p : Pc τ ν} (pc : s'.pc = Function.update s.pc t p) (fine : Scanned s p) :
      Scanned s (s'.pc u) := by
    rw [pc, Function.update_apply]
    split
    · exact fine
    · exact scanned u
  cases a with
  | register t =>
    simp only [act] at h
    split at h <;> cases h
    exact called rfl trivial
  | epochEnter t =>
    simp only [act] at h
    split at h <;> cases h
    exact scanned u
  | epochExit t =>
    simp only [act] at h
    split at h <;> cases h
    exact called rfl (by split <;> trivial)
  | ebrRetire t ptr =>
    simp only [act] at h
    split at h <;> cases h
    exact called rfl trivial
  | exit t =>
    simp only [act] at h
    split at h <;> cases h
    exact called rfl trivial
  | next t env =>
    by_cases e : u = t
    · subst e
      exact resume_scanned slots sections (scanned u) h
    · rw [(sections.place.resume h).pc_of_ne e]
      exact scanned u

theorem step_scanned {threshold : Nat} {s s' : State τ ν} {a : Label τ ν}
    (slots : s.slots.Inv) (sections : Sections s) (scanned : ∀ u, Scanned s (s.pc u))
    (h : step threshold s a = some s')
    (room : s.pc a.thread = .gcCas s.epoch → s.epoch + 1 < 2 ^ 31) (u : τ) :
    Scanned s' (s'.pc u) := by
  simp only [step] at h
  split at h
  · cases h
  · obtain ⟨v, hv, rfl⟩ := Option.map_eq_some_iff.mp h
    have e := (sections.place.act hv).fades room
    have fades : Fades s { v with clock := v.clock + 1 } := ⟨e.epoch, e.stale⟩
    exact fades.scanned (act_scanned slots sections scanned hv u)

end DBx1000.Epoch
