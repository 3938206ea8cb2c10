import DBx1000.Library.Transition
import DBx1000.TicToc.Word

/-!
# Renewing a read lease

`Row_tictoc::try_renew` under `ATOMIC_WORD`, without `TICTOC_MV`: one load of the
timestamp word, some tests on it, and then a loop of compare-and-swaps. Any number of
threads renew leases of one row while others lock and release it and write its data.

A lease is only ever extended as long as no call retries its CAS on a word whose lease
is already longer than its own: the loop compares the absolute `rts` of the call with
the relative lease length of the word, and so goes on where the check before the loop
returns.

## Main result

`lease_kept`: in every run whose failed exchanges do not find such a word, and whose rebases stay
below 2^48, no step shortens the lease of the row.

## Proof strategy

`Pending.Sound` is what a call in the loop may rely on: the word that it stores has the read
timestamp of the call, and the word that it expects has none beyond it. A step either stores such
a word, or changes only the lock bit, or writes under the lock.
-/

namespace DBx1000.TicToc

open Transition

/-- A call in its CAS loop: its arguments, the local `wts` after a rebase, the word
expected, the word to store and whether it rebases. -/
structure Pending where
  wts₀ : TsWord
  rts : TsWord
  wts : TsWord
  v : TsWord
  v2 : TsWord
  rebase : Bool
  deriving DecidableEq

/-- What follows the load of the word: the call returns, or it enters the loop. -/
inductive Renewal
  | returns (b : Bool)
  | loops (c : Pending)
  deriving DecidableEq

/-- The `delta` that a rebase adds to `wts`, and the rest of the lease. -/
def rebaseDelta (deltaRts : TsWord) : TsWord := deltaRts &&& ~~~((1#64 <<< rtsLen) - 1#64)
def rebaseRest (deltaRts : TsWord) : TsWord := deltaRts &&& ((1#64 <<< rtsLen) - 1#64)

/-- `try_renew` from its load of `v` to its first CAS. -/
def renewLoad (v wts rts : TsWord) : Renewal :=
  if wordWts v = wts ∧ rts - wts ≤ wordDelta v then .returns true
  else if locked v then .returns false
  else if wts ≠ wordWts v then .returns false
  else if rts - wts < wordDelta v then .returns true
  else if 1#64 <<< rtsLen ≤ rts - wts then
    let wts' := wts + rebaseDelta (rts - wts)
    .loops ⟨wts, rts, wts', v, leaseWord wts' (rebaseRest (rts - wts)), true⟩
  else .loops ⟨wts, rts, wts, v, leaseWord wts (rts - wts), false⟩

/-- What follows a failed CAS that found `preV`. -/
def renewRetry (c : Pending) (preV : TsWord) : Renewal :=
  if c.rebase ∨ locked preV ∨ c.wts ≠ wordWts preV then .returns false
  else if c.rts < wordDelta preV then .returns true
  else .loops { c with v := preV }

/-- Where a thread is in `try_renew`. -/
inductive RenewPc
  | idle
  | load (wts rts : TsWord)
  | cas (c : Pending)
  | returned (wts rts : TsWord) (b : Bool)
  deriving DecidableEq

/-- A thread calls `try_renew` or goes on with it; the row is locked, released or, under
its lock, written. -/
inductive RenewLabel (ι : Type*)
  | call (t : ι) (wts rts : TsWord)
  | next (t : ι)
  | lock
  | release
  | writeData (wts : TsWord)

structure RenewState (ι : Type*) where
  word : TsWord
  pc : ι → RenewPc

variable {ι : Type*} [DecidableEq ι]

def RenewState.goto (s : RenewState ι) (t : ι) (p : RenewPc) : RenewState ι :=
  { s with pc := Function.update s.pc t p }

theorem renew_goto_pc (s : RenewState ι) (t : ι) (p : RenewPc) (u : ι) :
    (s.goto t p).pc u = if u = t then p else s.pc u :=
  Function.update_apply s.pc t p u

/-- Where a call with these arguments goes on. -/
def Renewal.pc (wts rts : TsWord) : Renewal → RenewPc
  | .returns b => .returned wts rts b
  | .loops c => .cas c

def renewStep (s : RenewState ι) : RenewLabel ι → Option (RenewState ι)
  | .call t wts rts => if s.pc t = .idle then some (s.goto t (.load wts rts)) else none
  | .next t =>
    match s.pc t with
    | .idle => none
    | .load wts rts => some (s.goto t ((renewLoad s.word wts rts).pc wts rts))
    | .cas c =>
      if s.word = c.v then some { s.goto t (.returned c.wts₀ c.rts true) with word := c.v2 }
      else some (s.goto t ((renewRetry c s.word).pc c.wts₀ c.rts))
    | .returned _ _ _ => some (s.goto t .idle)
  | .lock => if locked s.word then none else some { s with word := s.word ||| lockBit }
  | .release => if locked s.word then some { s with word := s.word &&& ~~~lockBit } else none
  | .writeData wts => if locked s.word then some { s with word := writeWord s.word wts } else none

/-- Any word, and no call under way. -/
def renewMachine (ι : Type*) [DecidableEq ι] : Machine (RenewState ι) (RenewLabel ι) where
  init s := ∀ t, s.pc t = .idle
  step := renewStep

/-- Steps that meet the lease: the arguments of a call are a lease, whose rebased start
fits its field, and a failed CAS is retried only on a word with a lease no longer than
that of the call. -/
def KeepsLease (s : RenewState ι) : RenewLabel ι → Prop
  | .call _ wts rts => wts ≤ rts ∧
      (1#64 <<< rtsLen ≤ rts - wts → wts.toNat + (rebaseDelta (rts - wts)).toNat < 2 ^ 48)
  | .next t => ∀ c c', s.pc t = .cas c → s.word ≠ c.v → renewRetry c s.word = .loops c' →
      wordDelta s.word ≤ c.rts - c.wts₀
  | _ => True

instance (s : RenewState ι) : (l : RenewLabel ι) → Decidable (KeepsLease s l)
  | .call .. => inferInstanceAs (Decidable (_ ∧ _))
  | .next t =>
    match pc : s.pc t with
    | .cas c =>
      match loops : renewRetry c s.word with
      | .loops _ =>
        decidable_of_iff (s.word = c.v ∨ wordDelta s.word ≤ c.rts - c.wts₀)
          ⟨fun h d _ is stale _ => by
            cases pc.symm.trans is
            exact h.resolve_left stale,
          fun met => or_iff_not_imp_left.mpr fun stale => met c _ pc stale loops⟩
      | .returns _ => isTrue fun d _ is _ again => by
        cases pc.symm.trans is
        cases loops.symm.trans again
    | .idle | .load _ _ | .returned _ _ _ => isTrue fun _ _ is => by cases pc.symm.trans is
  | .lock | .release | .writeData _ => isTrue trivial

def RenewLabel.isWriteData : RenewLabel ι → Bool
  | .writeData _ => true
  | _ => false

/-- No lease is shortened while `write_data` does not run, and a lease that `try_renew`
has granted stands until then. -/
def LeaseKept (ι : Type*) [DecidableEq ι] (ok : RenewState ι → RenewLabel ι → Prop) : Prop :=
  (∀ s labels s', (renewMachine ι).Reachable ok s → (renewMachine ι).Along ok s labels s' →
    (∀ a ∈ labels, a.isWriteData = false) → readTs s.word ≤ readTs s'.word) ∧
  (∀ s t s₁ wts rts labels s', (renewMachine ι).Reachable ok s → ok s (.next t) →
    renewStep s (.next t) = some s₁ → s₁.pc t = .returned wts rts true →
    (renewMachine ι).Along ok s₁ labels s' → (∀ a ∈ labels, a.isWriteData = false) →
    rts.toNat ≤ readTs s'.word)

/-! ### The arithmetic of a lease -/

theorem toNat_rebaseRest (d : TsWord) : (rebaseRest d).toNat = d.toNat % 2 ^ 15 := by
  rw [rebaseRest, BitVec.toNat_and, show ((1#64 <<< rtsLen) - 1#64).toNat = 2 ^ 15 - 1 by decide,
    Nat.and_two_pow_sub_one_eq_mod]

theorem toNat_rebaseDelta (d : TsWord) :
    (rebaseDelta d).toNat = d.toNat / 2 ^ 15 * 2 ^ 15 := by
  have hd : d.toNat < 2 ^ 64 := d.isLt
  rw [rebaseDelta, BitVec.toNat_and,
    show (~~~((1#64 <<< rtsLen) - 1#64)).toNat = BitField.mask 15 49 by decide,
    BitField.and_mask, BitField.field]
  congr 1
  apply Nat.mod_eq_of_lt
  omega

theorem toNat_sub_of_le {a b : TsWord} (h : a ≤ b) : (b - a).toNat = b.toNat - a.toNat :=
  BitVec.toNat_sub_of_le h

/-- What a pending call relies on: it expects an unlocked word with the write timestamp
of its arguments and a lease no longer than its own, and it stores a word whose read
timestamp is its own. -/
structure Pending.Sound (c : Pending) : Prop where
  le : c.wts₀ ≤ c.rts
  wts : wordWts c.v = c.wts₀
  delta : wordDelta c.v ≤ c.rts - c.wts₀
  stored : readTs c.v2 = c.rts.toNat
  plain : c.rebase = false → c.wts = c.wts₀

theorem Pending.Sound.readTs_le {c : Pending} (h : c.Sound) : readTs c.v ≤ readTs c.v2 := by
  have hle : c.wts₀.toNat ≤ c.rts.toNat := h.le
  have hdelta : (wordDelta c.v).toNat ≤ (c.rts - c.wts₀).toNat := h.delta
  rw [toNat_sub_of_le h.le] at hdelta
  rw [h.stored, readTs, h.wts]
  omega

theorem readTs_rebase {wts rts : TsWord} (hle : wts ≤ rts)
    (fits : wts.toNat + (rebaseDelta (rts - wts)).toNat < 2 ^ 48) :
    readTs (leaseWord (wts + rebaseDelta (rts - wts)) (rebaseRest (rts - wts))) = rts.toNat := by
  have hle' : wts.toNat ≤ rts.toNat := hle
  have hsum : (wts + rebaseDelta (rts - wts)).toNat =
      wts.toNat + (rebaseDelta (rts - wts)).toNat := by
    rw [BitVec.toNat_add]
    exact Nat.mod_eq_of_lt (by omega)
  rw [readTs_leaseWord (by omega) (by rw [toNat_rebaseRest]; exact Nat.mod_lt _ (by decide)),
    hsum, toNat_rebaseDelta, toNat_rebaseRest, toNat_sub_of_le hle]
  omega

theorem renewLoad_loops {v wts rts : TsWord} {c : Pending} (hle : wts ≤ rts)
    (fits : 1#64 <<< rtsLen ≤ rts - wts →
      wts.toNat + (rebaseDelta (rts - wts)).toNat < 2 ^ 48)
    (h : renewLoad v wts rts = .loops c) : c.Sound ∧ c.wts₀ = wts ∧ c.rts = rts := by
  unfold renewLoad at h
  split at h
  next => cases h
  next =>
  split at h
  next => cases h
  next =>
  split at h
  next => cases h
  next same =>
  split at h
  next => cases h
  next shorter =>
  have hwts : wordWts v = wts := (not_not.mp same).symm
  have hdelta : wordDelta v ≤ rts - wts := BitVec.not_lt.mp shorter
  split at h
  -- the difference does not fit, so the write timestamp is moved up
  next long =>
    cases h
    exact ⟨⟨hle, hwts, hdelta, readTs_rebase hle (fits long), nofun⟩, rfl, rfl⟩
  -- the difference fits
  next short =>
    cases h
    have hshort : (rts - wts).toNat < 2 ^ 15 := by
      have := BitVec.not_le.mp short
      rwa [BitVec.lt_def, show (1#64 <<< rtsLen).toNat = 2 ^ 15 by decide] at this
    refine ⟨⟨hle, hwts, hdelta, ?_, fun _ => rfl⟩, rfl, rfl⟩
    have hle' : wts.toNat ≤ rts.toNat := hle
    change readTs (leaseWord wts (rts - wts)) = rts.toNat
    rw [readTs_leaseWord (by rw [← hwts]; exact wordWts_lt v) hshort, toNat_sub_of_le hle]
    omega

theorem renewLoad_true {v wts rts : TsWord} (hle : wts ≤ rts)
    (h : renewLoad v wts rts = .returns true) : rts.toNat ≤ readTs v := by
  have hle' : wts.toNat ≤ rts.toNat := hle
  have covers (same : wordWts v = wts) (long : rts - wts ≤ wordDelta v) :
      rts.toNat ≤ readTs v := by
    have : (rts - wts).toNat ≤ (wordDelta v).toNat := long
    rw [toNat_sub_of_le hle] at this
    rw [readTs, same]
    omega
  unfold renewLoad at h
  split at h
  next hit => exact covers hit.1 hit.2
  next =>
  split at h
  next => cases h
  next =>
  split at h
  next => cases h
  next same =>
  split at h
  next longer => exact covers (not_not.mp same).symm (BitVec.le_of_lt longer)
  next => split at h <;> cases h

theorem renewRetry_loops {c c' : Pending} {preV : TsWord} (hc : c.Sound)
    (fits : wordDelta preV ≤ c.rts - c.wts₀) (h : renewRetry c preV = .loops c') :
    c'.Sound ∧ c'.wts₀ = c.wts₀ ∧ c'.rts = c.rts := by
  unfold renewRetry at h
  split at h
  next => cases h
  next fresh =>
  split at h
  next => cases h
  next =>
  cases h
  simp only [not_or, Bool.not_eq_true, not_not] at fresh
  obtain ⟨hrebase, -, hwts⟩ := fresh
  refine ⟨⟨hc.le, ?_, fits, hc.stored, hc.plain⟩, rfl, rfl⟩
  change wordWts preV = c.wts₀
  rw [← hwts, hc.plain hrebase]

theorem renewRetry_true {c : Pending} {preV : TsWord}
    (h : renewRetry c preV = .returns true) : c.rts.toNat ≤ readTs preV := by
  unfold renewRetry at h
  split at h
  next => cases h
  next =>
  split at h
  next longer =>
    have : c.rts.toNat < (wordDelta preV).toNat := longer
    rw [readTs]
    omega
  next => cases h

/-! ### Runs -/

/-- Every call is about a lease, and every call in the loop is sound. -/
def RenewPc.Sound : RenewPc → Prop
  | .idle | .returned _ _ _ => True
  | .load wts rts => wts ≤ rts ∧ (1#64 <<< rtsLen ≤ rts - wts →
      wts.toNat + (rebaseDelta (rts - wts)).toNat < 2 ^ 48)
  | .cas c => c.Sound

def RenewInv (s : RenewState ι) : Prop := ∀ t, (s.pc t).Sound

theorem RenewInv.goto {s : RenewState ι} {t : ι} {p : RenewPc} (hi : RenewInv s)
    (hp : p.Sound) : RenewInv (s.goto t p) := by
  intro u
  rw [renew_goto_pc]
  split
  next => exact hp
  next => exact hi u

/-- What one step does to the word and to the call that takes it. -/
inductive RenewEffect (s : RenewState ι) : RenewLabel ι → RenewState ι → Prop
  | start (t : ι) (wts rts : TsWord) : (RenewPc.load wts rts).Sound →
      RenewEffect s (.call t wts rts) (s.goto t (.load wts rts))
  | walk (t : ι) (p : RenewPc) : p.Sound →
      (∀ wts rts, p = .returned wts rts true → rts.toNat ≤ readTs s.word) →
      RenewEffect s (.next t) (s.goto t p)
  | renew (t : ι) (c : Pending) : c.Sound → s.word = c.v →
      RenewEffect s (.next t) { s.goto t (.returned c.wts₀ c.rts true) with word := c.v2 }
  | relock (a : RenewLabel ι) (w : TsWord) : (∀ t, a ≠ .next t) →
      w.toNat % 2 ^ 63 = s.word.toNat % 2 ^ 63 → RenewEffect s a { s with word := w }
  | write (wts w : TsWord) : RenewEffect s (.writeData wts) { s with word := w }

theorem renewStep_effect {s s' : RenewState ι} {a : RenewLabel ι} (hi : RenewInv s)
    (ok : KeepsLease s a) (h : renewStep s a = some s') : RenewEffect s a s' := by
  cases a with
  | call t wts rts =>
    simp only [renewStep] at h
    split at h
    · cases h; exact .start t wts rts ok
    · cases h
  | next t =>
    have sound := hi t
    cases hp : s.pc t with
    | idle => simp [renewStep, hp] at h
    | returned wts rts b =>
      simp only [renewStep, hp] at h
      cases h
      exact .walk t _ trivial nofun
    | load wts rts =>
      rw [hp] at sound
      simp only [renewStep, hp] at h
      cases h
      cases hr : renewLoad s.word wts rts with
      | returns b =>
        refine .walk t _ trivial fun _ _ e => ?_
        cases e
        exact renewLoad_true sound.1 hr
      | loops c => exact .walk t _ (renewLoad_loops sound.1 sound.2 hr).1 nofun
    | cas c =>
      rw [hp] at sound
      simp only [renewStep, hp] at h
      split at h
      · -- the compare and swap finds the word it was prepared for
        next same => cases h; exact .renew t c sound same
      · -- it fails, and goes on with the word it has found
        next other =>
        cases h
        cases hr : renewRetry c s.word with
        | returns b =>
          refine .walk t _ trivial fun _ _ e => ?_
          cases e
          exact renewRetry_true hr
        | loops c' =>
          exact .walk t _ (renewRetry_loops sound (ok c c' hp other hr) hr).1 nofun
  | lock =>
    simp only [renewStep] at h
    split at h
    · cases h
    · cases h; exact .relock _ _ nofun (lock_mod s.word)
  | release =>
    simp only [renewStep] at h
    split at h
    · cases h; exact .relock _ _ nofun (release_mod s.word)
    · cases h
  | writeData wts =>
    simp only [renewStep] at h
    split at h
    · cases h; exact .write wts _
    · cases h

theorem RenewEffect.inv {s s' : RenewState ι} {a : RenewLabel ι} (hi : RenewInv s)
    (h : RenewEffect s a s') : RenewInv s' := by
  cases h with
  | start t wts rts ok => exact hi.goto ok
  | walk t p hp => exact hi.goto hp
  | renew t c => exact (hi.goto (t := t) (p := .returned c.wts₀ c.rts true) trivial : RenewInv _)
  | relock => exact hi
  | write => exact hi

theorem RenewEffect.readTs_le {s s' : RenewState ι} {a : RenewLabel ι}
    (h : RenewEffect s a s') (quiet : a.isWriteData = false) :
    readTs s.word ≤ readTs s'.word := by
  cases h with
  | start => exact le_refl _
  | walk => exact le_refl _
  | renew t c hc same => rw [same]; exact hc.readTs_le
  | relock _ w _ same => exact (readTs_of_mod_eq same).ge
  | write => cases quiet

theorem RenewEffect.granted {s s' : RenewState ι} {t : ι} {wts rts : TsWord}
    (h : RenewEffect s (.next t) s') (ret : s'.pc t = .returned wts rts true) :
    rts.toNat ≤ readTs s'.word := by
  cases h with
  | walk _ p _ granted =>
    rw [renew_goto_pc, if_pos rfl] at ret
    exact granted _ _ ret
  | renew _ c hc _ =>
    change (s.goto t (.returned c.wts₀ c.rts true)).pc t = _ at ret
    rw [renew_goto_pc, if_pos rfl] at ret
    cases ret
    exact hc.stored.ge
  | relock _ _ other => exact absurd rfl (other t)

theorem renewInv_of_reachable {s : RenewState ι}
    (reached : (renewMachine ι).Reachable KeepsLease s) : RenewInv s :=
  reached.invariant (fun s idle t => by rw [idle t]; trivial)
    (fun _ _ _ hi ok h => (renewStep_effect hi ok h).inv hi)

theorem readTs_mono {s s' : RenewState ι} {labels : List (RenewLabel ι)}
    (path : (renewMachine ι).Along KeepsLease s labels s') (hi : RenewInv s)
    (quiet : ∀ a ∈ labels, a.isWriteData = false) : readTs s.word ≤ readTs s'.word := by
  induction path with
  | nil => exact le_refl _
  | cons ok next _ ih =>
    have effect := renewStep_effect hi ok next
    exact (effect.readTs_le (quiet _ List.mem_cons_self)).trans
      (ih (effect.inv hi) fun a ha => quiet a (List.mem_cons_of_mem _ ha))

/-- In every run that meets `KeepsLease`, no lease is shortened. -/
theorem lease_kept : LeaseKept ι KeepsLease := by
  constructor
  · intro s labels s' reached path quiet
    exact readTs_mono path (renewInv_of_reachable reached) quiet
  · intro s t s₁ wts rts labels s' reached ok next ret path quiet
    have hi := renewInv_of_reachable reached
    have effect := renewStep_effect hi ok next
    exact (effect.granted ret).trans (readTs_mono path (effect.inv hi) quiet)

/-- Two calls renew a lease at 100, to 105 and to 110. The shorter one wins the CAS; the longer
one tries again, and the row is locked and released. -/
def renewAgain : List (RenewLabel Bool) :=
  [.call false 100 105, .call true 100 110, .next false, .next true, .next false, .next true,
    .next true, .lock, .release]

/-- Both leases stand when the row has been locked and released. -/
theorem lease_kept_again : ∃ s : RenewState Bool,
    (renewMachine Bool).Along KeepsLease ⟨100, fun _ => .idle⟩ renewAgain s ∧
      (105#64).toNat ≤ readTs s.word ∧ (110#64).toNat ≤ readTs s.word := by
  obtain ⟨s, run, -⟩ := (renewMachine Bool).exists_along KeepsLease ⟨100, fun _ => .idle⟩ renewAgain
    (·.word) (leaseWord 100 10) (by decide)
  have granted (t : Bool) (rts : TsWord) (before after : List (RenewLabel Bool))
      (whole : renewAgain = before ++ .next t :: after)
      (returns : (((renewMachine Bool).runIf KeepsLease ⟨100, fun _ => .idle⟩
        (before ++ [.next t])).map (·.pc t)) = some (.returned 100 rts true))
      (quiet : ∀ a ∈ after, a.isWriteData = false) : rts.toNat ≤ readTs s.word := by
    obtain ⟨s₁, first, rest⟩ := (whole ▸ run).split
    obtain ⟨s₂, path, returned⟩ := Machine.exists_along _ KeepsLease _ _ _ _ returns
    have start : (renewMachine Bool).Reachable KeepsLease ⟨100, fun _ => .idle⟩ :=
      .init fun _ => rfl
    cases rest with
    | cons met next rest =>
      have same := (first.append (.cons met next (.nil _))).unique path
      exact (lease_kept (ι := Bool)).2 s₁ t _ 100 rts after s (start.along first) met next
        (same ▸ returned) rest quiet
  refine ⟨s, run, ?_, ?_⟩
  · exact granted false 105 [.call false 100 105, .call true 100 110, .next false, .next true]
      [.next true, .next true, .lock, .release] rfl (by decide) (by decide)
  · exact granted true 110 [.call false 100 105, .call true 100 110, .next false, .next true,
      .next false, .next true] [.lock, .release] rfl (by decide) (by decide)

/-- Two calls renew a lease at 100, to 105 and to 110. The longer one wins the CAS. -/
def twoRenewals : List (RenewLabel Bool) :=
  [.call false 100 105, .call true 100 110, .next false, .next true, .next true]

/-- The shorter call fails its CAS, retries because 105 is not below the lease length 10,
and stores the shorter lease. -/
theorem lease_shortened : ¬ LeaseKept Bool Free := by
  rintro ⟨mono, -⟩
  let start : RenewState Bool := ⟨100, fun _ => .idle⟩
  have first : ((renewMachine Bool).run start twoRenewals).map (readTs ·.word) = some 110 := by
    decide
  have second : ((renewMachine Bool).run start (twoRenewals ++ [.next false, .next false])).map
      (readTs ·.word) = some 105 := by decide
  obtain ⟨m, hm, long⟩ := Option.map_eq_some_iff.mp first
  obtain ⟨s', hs', short⟩ := Option.map_eq_some_iff.mp second
  rw [Machine.run_append, hm, Option.bind_some] at hs'
  have reached : (renewMachine Bool).Reachable Free m :=
    ⟨start, twoRenewals, fun _ => rfl, Machine.along_of_run hm⟩
  have := mono m _ s' reached (Machine.along_of_run hs') (by simp [RenewLabel.isWriteData])
  omega

end DBx1000.TicToc
