import Mathlib.Data.Nat.ModEq
import Mathlib.Logic.Function.Basic

/-!
# Timestamps

`Manager::get_ts` for the two methods that count, `TS_MUTEX` and `TS_CAS`, and
`thread_t::get_next_ts`, which may take a batch of timestamps from the manager at a time.
The horizon of a clock is above every timestamp that it has given out.
-/

namespace DBx1000

inductive TsAlloc
  | TS_MUTEX
  | TS_CAS
  deriving DecidableEq

/-- `g_ts_alloc`, `g_ts_batch_alloc` and `g_ts_batch_num`. Only `TS_CAS` allocates batches, as
`get_ts` asserts. -/
structure TsConfig where
  tsAlloc : TsAlloc
  tsBatchAlloc : Bool
  tsBatchNum : Nat
  batch_cas : tsBatchAlloc = true → tsAlloc = .TS_CAS
  batchNum_pos : 0 < tsBatchNum

/-- The counter of the manager and `_curr_ts` of every thread. -/
structure Clock (τ : Type*) where
  timestamp : Nat
  currTs : τ → Nat

variable {τ : Type*} [DecidableEq τ] (cfg : TsConfig)

namespace Clock

omit [DecidableEq τ] in
/-- The counter as the constructor of `Manager` leaves it. `thread_t::init` does not set
`_curr_ts`: a thread starts with what is in the memory of its object. -/
def init (currTs : τ → Nat) : Clock τ := ⟨1, currTs⟩

omit [DecidableEq τ] in
/-- `Manager::get_ts`. -/
def getTs (c : Clock τ) : Nat × Clock τ :=
  match cfg.tsAlloc with
  | .TS_MUTEX => (c.timestamp + 1, { c with timestamp := c.timestamp + 1 })
  | .TS_CAS =>
    (c.timestamp,
      { c with timestamp := c.timestamp + if cfg.tsBatchAlloc then cfg.tsBatchNum else 1 })

def setCurr (c : Clock τ) (t : τ) (ts : Nat) : Clock τ :=
  { c with currTs := Function.update c.currTs t ts }

/-- `thread_t::get_next_ts`. -/
def getNextTs (c : Clock τ) (t : τ) : Nat × Clock τ :=
  if cfg.tsBatchAlloc then
    if c.currTs t % cfg.tsBatchNum = 0 then
      let (ts, c') := c.getTs cfg
      (ts, c'.setCurr t (ts + 1))
    else (c.currTs t, c.setCurr t (c.currTs t + 1))
  else
    let (ts, c') := c.getTs cfg
    (ts, c'.setCurr t ts)

omit [DecidableEq τ] in
/-- The next timestamp of the manager. -/
def horizon (c : Clock τ) : Nat :=
  match cfg.tsAlloc with
  | .TS_MUTEX => c.timestamp + 1
  | .TS_CAS => c.timestamp

omit [DecidableEq τ] in
/-- No thread takes the memory of its object for the rest of a batch. -/
def AtBoundary (currTs : τ → Nat) : Prop :=
  cfg.tsBatchAlloc = true → ∀ t, currTs t % cfg.tsBatchNum = 0

omit [DecidableEq τ] in
/-- A thread amid a batch is below the horizon, where the next batch begins. -/
structure Sound (c : Clock τ) : Prop where
  pos : 0 < c.timestamp
  aligned : cfg.tsBatchAlloc = true → c.timestamp % cfg.tsBatchNum = 1 % cfg.tsBatchNum
  below : cfg.tsBatchAlloc = true →
    ∀ t, c.currTs t % cfg.tsBatchNum ≠ 0 → c.currTs t < c.timestamp

variable {cfg} {c : Clock τ} {t : τ} {currTs : τ → Nat}

omit [DecidableEq τ] in
theorem getTs_time : (c.getTs cfg).1 = c.horizon cfg := by
  unfold getTs horizon
  cases cfg.tsAlloc <;> rfl

omit [DecidableEq τ] in
theorem horizon_getTs : c.horizon cfg < (c.getTs cfg).2.horizon cfg := by
  have := cfg.batchNum_pos
  unfold getTs horizon
  cases cfg.tsAlloc with
  | TS_MUTEX => exact Nat.lt_succ_self _
  | TS_CAS =>
    change c.timestamp < c.timestamp + _
    split <;> omega

@[simp] theorem horizon_setCurr (ts : Nat) :
    (c.setCurr t ts).horizon cfg = c.horizon cfg := rfl

omit [DecidableEq τ] in
theorem sound_init (start : AtBoundary cfg currTs) : (init currTs).Sound cfg :=
  ⟨Nat.one_pos, fun _ => rfl, fun batch t ne => absurd (start batch t) ne⟩

namespace Sound

omit [DecidableEq τ] in
theorem horizon_pos (h : c.Sound cfg) : 0 < c.horizon cfg := by
  unfold horizon
  cases cfg.tsAlloc with
  | TS_MUTEX => exact Nat.succ_pos _
  | TS_CAS => exact h.pos

omit [DecidableEq τ] in
theorem getTs (h : c.Sound cfg) : (c.getTs cfg).2.Sound cfg := by
  obtain ⟨pos, aligned, below⟩ := h
  unfold Clock.getTs
  cases alloc : cfg.tsAlloc with
  | TS_MUTEX =>
    have single : cfg.tsBatchAlloc ≠ true := fun batch => by
      have := cfg.batch_cas batch
      rw [alloc] at this
      cases this
    exact ⟨Nat.succ_pos _, fun batch => absurd batch single, fun batch => absurd batch single⟩
  | TS_CAS =>
    refine ⟨Nat.add_pos_left pos _, fun batch => ?_, fun batch u ne => ?_⟩
    · change (c.timestamp + if cfg.tsBatchAlloc then _ else 1) % _ = _
      rw [if_pos batch, Nat.add_mod_right]
      exact aligned batch
    · exact Nat.lt_of_lt_of_le (below batch u ne) (Nat.le_add_right _ _)

theorem setCurr (h : c.Sound cfg) {ts : Nat}
    (ok : cfg.tsBatchAlloc = true → ts % cfg.tsBatchNum ≠ 0 → ts < c.timestamp) :
    (c.setCurr t ts).Sound cfg := by
  obtain ⟨pos, aligned, below⟩ := h
  refine ⟨pos, aligned, fun batch u => ?_⟩
  change Function.update c.currTs t ts u % _ ≠ 0 → Function.update c.currTs t ts u < _
  rw [Function.update_apply]
  split
  · exact ok batch
  · exact below batch u

omit [DecidableEq τ] in
/-- A timestamp amid a batch is not the last before the next batch. -/
theorem succ_lt (h : c.Sound cfg) (batch : cfg.tsBatchAlloc = true) {ts : Nat}
    (lt : ts < c.timestamp) (amid : ts % cfg.tsBatchNum ≠ 0) : ts + 1 < c.timestamp := by
  have aligned := h.aligned batch
  -- otherwise the successor is the first timestamp of the next batch
  rcases Nat.lt_or_eq_of_le (Nat.succ_le_of_lt lt) with lt | eq
  · exact lt
  · rw [← eq] at aligned
    have : ts % cfg.tsBatchNum = 0 := by
      have : (ts + 1) % cfg.tsBatchNum = (0 + 1) % cfg.tsBatchNum := aligned
      have := Nat.ModEq.add_right_cancel' 1 this
      rw [Nat.ModEq, Nat.zero_mod] at this
      exact this
    exact absurd this amid

theorem getNextTs (h : c.Sound cfg) : (c.getNextTs cfg t).2.Sound cfg := by
  unfold Clock.getNextTs
  split
  · next batch =>
    have cas := cfg.batch_cas batch
    split
    · refine h.getTs.setCurr fun _ amid => ?_
      -- the first timestamp of the new batch has a successor unless batches have length one
      have aligned := h.aligned batch
      rw [getTs_time] at amid ⊢
      simp only [horizon, Clock.getTs, cas] at amid ⊢
      rw [if_pos batch]
      have := cfg.batchNum_pos
      rcases Nat.lt_or_eq_of_le (Nat.succ_le_of_lt this) with more | one
      · omega
      · rw [← one, Nat.mod_one] at amid
        exact absurd rfl amid
    · next amid =>
      exact h.setCurr fun _ _ => h.succ_lt batch (h.below batch t amid) amid
  · next single => exact h.getTs.setCurr fun batch => absurd batch single

/-- A thread's timestamp is below the horizon after it, and the horizon never goes back. -/
theorem getNextTs_lt (h : c.Sound cfg) :
    (c.getNextTs cfg t).1 < (c.getNextTs cfg t).2.horizon cfg := by
  unfold Clock.getNextTs
  split
  · next batch =>
    split
    · rw [getTs_time]
      exact horizon_getTs
    · next amid =>
      have := h.below batch t amid
      rw [horizon_setCurr, horizon, cfg.batch_cas batch]
      exact this
  · rw [getTs_time]
    exact horizon_getTs

end Sound

theorem horizon_getNextTs : c.horizon cfg ≤ (c.getNextTs cfg t).2.horizon cfg := by
  unfold Clock.getNextTs
  split
  · split
    · exact Nat.le_of_lt horizon_getTs
    · exact Nat.le_refl _
  · exact Nat.le_of_lt horizon_getTs

/-! ### Timestamps that do not come again -/

variable (cfg c) in
omit [DecidableEq τ] in
/-- A timestamp that no thread will draw: it is below the horizon, and what is left of the batch
that it is from is above it. -/
structure Spent (v : Nat) : Prop where
  lt : v < c.horizon cfg
  passed : cfg.tsBatchAlloc = true → ∀ t, c.currTs t % cfg.tsBatchNum ≠ 0 →
    v / cfg.tsBatchNum = c.currTs t / cfg.tsBatchNum → v < c.currTs t

namespace Spent

variable {v : Nat}

omit [DecidableEq τ] in
theorem init (start : AtBoundary cfg currTs) : (Clock.init currTs).Spent cfg 0 :=
  ⟨(sound_init start).horizon_pos, fun batch t amid => absurd (start batch t) amid⟩

omit [DecidableEq τ] in
theorem getTs (h : c.Spent cfg v) : (c.getTs cfg).2.Spent cfg v := by
  constructor
  · exact Nat.lt_trans h.lt horizon_getTs
  · intro batch
    have := h.passed batch
    unfold Clock.getTs
    cases cfg.tsAlloc <;> exact this

omit [DecidableEq τ] in
/-- The timestamp that the manager gives out is spent. -/
theorem self (sound : c.Sound cfg) : (c.getTs cfg).2.Spent cfg (c.getTs cfg).1 := by
  constructor
  · rw [getTs_time]
    exact horizon_getTs
  · intro batch t amid same
    have cas := cfg.batch_cas batch
    have aligned := sound.aligned batch
    have below := sound.below batch t
    simp only [Clock.getTs, cas] at amid same below ⊢
    have below := below amid
    -- a thread amid a batch is in an earlier one
    have lt : c.currTs t + 1 < c.timestamp := sound.succ_lt batch below amid
    have pos := cfg.batchNum_pos
    generalize cfg.tsBatchNum = n at *
    rcases Nat.lt_or_eq_of_le (Nat.succ_le_of_lt pos) with more | one
    · have one : 1 % n = 1 := Nat.mod_eq_of_lt more
      have split := Nat.div_add_mod c.timestamp n
      have split' := Nat.div_add_mod (c.currTs t) n
      have := Nat.mod_lt (c.currTs t) pos
      rw [aligned, one, same] at split
      omega
    · rw [← one, Nat.mod_one] at amid
      exact absurd rfl amid

theorem getNextTs (h : c.Spent cfg v) :
    (c.getNextTs cfg t).2.Spent cfg v ∧ v ≠ (c.getNextTs cfg t).1 := by
  have pos := cfg.batchNum_pos
  have curr {c' : Clock τ} {ts : Nat} (h' : c'.Spent cfg v)
      (ok : cfg.tsBatchAlloc = true → ts % cfg.tsBatchNum ≠ 0 →
        v / cfg.tsBatchNum = ts / cfg.tsBatchNum → v < ts) : (c'.setCurr t ts).Spent cfg v := by
    refine ⟨h'.lt, fun batch u => ?_⟩
    change Function.update c'.currTs t ts u % _ ≠ 0 → _ = Function.update c'.currTs t ts u / _ →
      v < Function.update c'.currTs t ts u
    rw [Function.update_apply]
    split
    · exact ok batch
    · exact h'.passed batch u
  unfold Clock.getNextTs
  split
  · next batch =>
    split
    · have lt : v < (c.getTs cfg).1 := by
        rw [getTs_time]
        exact h.lt
      exact ⟨curr h.getTs fun _ _ _ => Nat.lt_succ_of_lt lt, Nat.ne_of_lt lt⟩
    · next amid =>
      constructor
      · refine curr h fun _ more same => ?_
        -- the next timestamp of the batch is in the same block
        have block : (c.currTs t + 1) / cfg.tsBatchNum = c.currTs t / cfg.tsBatchNum := by
          rw [Nat.succ_div, if_neg, Nat.add_zero]
          exact fun dvd => more (Nat.mod_eq_zero_of_dvd dvd)
        rw [block] at same
        exact Nat.lt_succ_of_lt (h.passed batch t amid same)
      · intro is
        have := h.passed batch t amid (by rw [is])
        rw [is] at this
        exact Nat.lt_irrefl _ this
  · next single =>
    have lt : v < (c.getTs cfg).1 := by
      rw [getTs_time]
      exact h.lt
    exact ⟨curr h.getTs fun batch => absurd batch single, Nat.ne_of_lt lt⟩

end Spent

end Clock

end DBx1000
