import DBx1000.Library.Transition
import DBx1000.System.Manager

/-!
# Timestamps are unique

Any number of threads call `thread_t::get_next_ts` and `Manager::get_ts` in any order, and a
log has every value that a call returned. The calls are atomic: `_curr_ts` is private to its
thread and the counter is accessed once. All of it is computed in 64 bits.

## Main result

`timestamps_unique`: the values are distinct, and those of one thread increase, in every run
if and only if no thread starts amid a batch. Nothing sets `_curr_ts` before the first call, so
its initial value is arbitrary.

## Proof strategy

A value that was returned is spent: it is below the horizon, and what is left of any batch is
above it. A thread that starts amid a batch returns its initial value, and then the first
value of the manager, which is not above it.
-/

namespace DBx1000

open Transition

variable {τ : Type*} [DecidableEq τ]

omit [DecidableEq τ] in
/-- The counters of the clock as 64-bit words. -/
def Clock.wrap (c : Clock τ) : Clock τ := ⟨c.timestamp % 2 ^ 64, fun t => c.currTs t % 2 ^ 64⟩

omit [DecidableEq τ] in
theorem Clock.wrap_of_lt {c : Clock τ} (timestamp : c.timestamp < 2 ^ 64)
    (currTs : ∀ t, c.currTs t < 2 ^ 64) : c.wrap = c := by
  unfold Clock.wrap
  rw [Nat.mod_eq_of_lt timestamp]
  congr
  funext t
  exact Nat.mod_eq_of_lt (currTs t)

/-- The clock, and the values that were returned, the last one first; a value that the manager
returned itself has no thread. -/
structure TsState (τ : Type*) where
  clock : Clock τ
  log : List (Option τ × Nat)

inductive TsLabel (τ : Type*)
  /-- `thread_t::get_next_ts`. -/
  | getNextTs (t : τ)
  /-- `Manager::get_ts`, for a commit timestamp. -/
  | getTs

namespace TsState

def step (cfg : TsConfig) (s : TsState τ) : TsLabel τ → TsState τ
  | .getNextTs t =>
    let (ts, c) := s.clock.getNextTs cfg t
    ⟨c.wrap, (some t, ts % 2 ^ 64) :: s.log⟩
  | .getTs =>
    let (ts, c) := s.clock.getTs cfg
    ⟨c.wrap, (none, ts % 2 ^ 64) :: s.log⟩

omit [DecidableEq τ] in
/-- No value is returned twice, and later values of a thread are greater. -/
structure Unique (s : TsState τ) : Prop where
  nodup : (s.log.map Prod.snd).Nodup
  increasing : s.log.Pairwise fun later earlier =>
    later.1 ≠ none → later.1 = earlier.1 → earlier.2 < later.2

omit [DecidableEq τ] in
/-- The counter of the manager does not pass the end of 64 bits. -/
def InRange (cfg : TsConfig) (s : TsState τ) (_ : TsLabel τ) : Prop :=
  s.clock.timestamp + cfg.tsBatchNum < 2 ^ 64

end TsState

/-- The threads start with what is in the memory of their objects. -/
def tsMachine (cfg : TsConfig) (currTs : τ → UInt64) : Machine (TsState τ) (TsLabel τ) where
  init s := s = ⟨⟨1, fun t => (currTs t).toNat⟩, []⟩
  step s l := some (s.step cfg l)

variable {cfg : TsConfig} {currTs : τ → UInt64} {s : TsState τ}

/-! ### One call -/

namespace Clock

variable {c : Clock τ} {t : τ}

omit [DecidableEq τ] in
theorem getTs_lt (range : c.timestamp + cfg.tsBatchNum < 2 ^ 64) :
    (c.getTs cfg).2.timestamp < 2 ^ 64 ∧ (c.getTs cfg).1 ≤ (c.getTs cfg).2.timestamp := by
  have pos := cfg.batchNum_pos
  unfold Clock.getTs
  cases cfg.tsAlloc with
  | TS_MUTEX =>
    dsimp only
    exact ⟨by omega, Nat.le_refl _⟩
  | TS_CAS =>
    dsimp only
    refine ⟨?_, Nat.le_add_right _ _⟩
    split <;> omega

omit [DecidableEq τ] in
theorem getTs_currTs : (c.getTs cfg).2.currTs = c.currTs := by
  unfold Clock.getTs
  cases cfg.tsAlloc <;> rfl

variable (cfg c) in
omit [DecidableEq τ] in
/-- No two threads are amid the same batch. -/
def Apart : Prop := ∀ t u, t ≠ u → c.currTs t % cfg.tsBatchNum ≠ 0 →
  c.currTs u % cfg.tsBatchNum ≠ 0 → c.currTs t / cfg.tsBatchNum ≠ c.currTs u / cfg.tsBatchNum

theorem Apart.setCurr {ts : Nat} (apart : c.Apart cfg) (new : ts % cfg.tsBatchNum ≠ 0 →
    ∀ u, u ≠ t → c.currTs u % cfg.tsBatchNum ≠ 0 →
      c.currTs u / cfg.tsBatchNum ≠ ts / cfg.tsBatchNum) : (c.setCurr t ts).Apart cfg := by
  intro u v ne
  change Function.update c.currTs t ts u % _ ≠ 0 → Function.update c.currTs t ts v % _ ≠ 0 →
    Function.update c.currTs t ts u / _ ≠ Function.update c.currTs t ts v / _
  rw [Function.update_apply, Function.update_apply]
  split
  · next e =>
    rw [if_neg fun e' => ne (e.trans e'.symm)]
    exact fun amid amid' => (new amid v (fun e' => ne (e.trans e'.symm)) amid').symm
  · next ne' =>
    split
    · exact fun amid amid' => new amid' u ne' amid
    · exact apart u v ne

omit [DecidableEq τ] in
theorem div_succ {ts n : Nat} (amid : (ts + 1) % n ≠ 0) : (ts + 1) / n = ts / n := by
  rw [Nat.succ_div, if_neg, Nat.add_zero]
  exact fun dvd => amid (Nat.mod_eq_zero_of_dvd dvd)

omit [DecidableEq τ] in
/-- A new batch is not one that a thread is amid. -/
theorem Sound.block_ne (sound : c.Sound cfg) (batch : cfg.tsBatchAlloc = true)
    (amid : c.currTs t % cfg.tsBatchNum ≠ 0) :
    c.currTs t / cfg.tsBatchNum ≠ (c.getTs cfg).1 / cfg.tsBatchNum := by
  intro same
  have self := (Spent.self sound).passed batch t
  rw [getTs_currTs, same] at self
  have past := self amid rfl
  have below := sound.below batch t amid
  rw [getTs_time, horizon, cfg.batch_cas batch] at past
  exact Nat.lt_asymm below past

/-- What a call of `get_next_ts` returns and leaves. -/
theorem getNextTs_cases (cfg : TsConfig) (c : Clock τ) (t : τ) :
    (cfg.tsBatchAlloc = true ∧ c.currTs t % cfg.tsBatchNum = 0 ∧
      c.getNextTs cfg t = ((c.getTs cfg).1, (c.getTs cfg).2.setCurr t ((c.getTs cfg).1 + 1))) ∨
    (cfg.tsBatchAlloc = true ∧ c.currTs t % cfg.tsBatchNum ≠ 0 ∧
      c.getNextTs cfg t = (c.currTs t, c.setCurr t (c.currTs t + 1))) ∨
    cfg.tsBatchAlloc ≠ true ∧
      c.getNextTs cfg t = ((c.getTs cfg).1, (c.getTs cfg).2.setCurr t (c.getTs cfg).1) := by
  unfold getNextTs
  split
  · next batch =>
    split
    · next full => exact .inl ⟨batch, full, rfl⟩
    · next amid => exact .inr (.inl ⟨batch, amid, rfl⟩)
  · next single => exact .inr (.inr ⟨single, rfl⟩)

omit [DecidableEq τ] in
theorem Apart.getTs (apart : c.Apart cfg) : (c.getTs cfg).2.Apart cfg := by
  unfold Clock.getTs
  cases cfg.tsAlloc <;> exact apart

theorem Apart.getNextTs (sound : c.Sound cfg) (apart : c.Apart cfg)
    (batch : cfg.tsBatchAlloc = true) : (c.getNextTs cfg t).2.Apart cfg := by
  rcases c.getNextTs_cases cfg t with ⟨-, -, e⟩ | ⟨-, mine, e⟩ | ⟨single, -⟩
  · rw [e]
    refine apart.getTs.setCurr fun amid u _ other => ?_
    rw [getTs_currTs] at other ⊢
    rw [div_succ amid]
    exact sound.block_ne batch other
  · rw [e]
    refine apart.setCurr fun amid u ne other => ?_
    rw [div_succ amid]
    exact apart u t ne other mine
  · exact absurd batch single

/-- The timestamp that a thread draws is spent. -/
theorem Spent.next (sound : c.Sound cfg)
    (apart : cfg.tsBatchAlloc = true → c.Apart cfg) :
    (c.getNextTs cfg t).2.Spent cfg (c.getNextTs cfg t).1 := by
  refine ⟨sound.getNextTs_lt, fun batch u => ?_⟩
  -- a new batch, the batch of the thread, or no batches at all
  rcases c.getNextTs_cases cfg t with ⟨-, -, e⟩ | ⟨-, mine, e⟩ | ⟨single, -⟩
  · rw [e]
    change Function.update (c.getTs cfg).2.currTs t _ u % _ ≠ 0 →
      _ = Function.update (c.getTs cfg).2.currTs t _ u / _ →
        _ < Function.update (c.getTs cfg).2.currTs t _ u
    rw [Function.update_apply]
    split
    · -- the thread itself is past it
      exact fun _ _ => Nat.lt_succ_self _
    · exact (Spent.self sound).passed batch u
  · rw [e]
    change Function.update c.currTs t _ u % _ ≠ 0 → _ = Function.update c.currTs t _ u / _ →
      _ < Function.update c.currTs t _ u
    rw [Function.update_apply]
    split
    · exact fun _ _ => Nat.lt_succ_self _
    · -- the batches of two threads are apart
      next ne => exact fun amid same => absurd same (apart batch t u (Ne.symm ne) mine amid)
  · exact absurd batch single

omit [DecidableEq τ] in
/-- The counters of the clock are 64-bit words. -/
structure Words (c : Clock τ) : Prop where
  timestamp : c.timestamp < 2 ^ 64
  currTs : ∀ t, c.currTs t < 2 ^ 64

omit [DecidableEq τ] in
theorem Words.wrap (words : c.Words) : c.wrap = c := Clock.wrap_of_lt words.timestamp words.currTs

omit [DecidableEq τ] in
theorem getTs_batch_lt (range : c.timestamp + cfg.tsBatchNum < 2 ^ 64)
    (batch : cfg.tsBatchAlloc = true) : (c.getTs cfg).1 + 1 < 2 ^ 64 := by
  have pos := cfg.batchNum_pos
  rw [getTs_time, horizon, cfg.batch_cas batch]
  dsimp only
  omega

/-- A draw in range stays within 64 bits. -/
theorem Words.getNextTs (words : c.Words) (sound : c.Sound cfg)
    (range : c.timestamp + cfg.tsBatchNum < 2 ^ 64) :
    (c.getNextTs cfg t).1 < 2 ^ 64 ∧ (c.getNextTs cfg t).2.Words := by
  obtain ⟨timestamp, le⟩ := getTs_lt range
  have pos := cfg.batchNum_pos
  have set {c' : Clock τ} {ts : Nat} (timestamp : c'.timestamp < 2 ^ 64)
      (currTs : ∀ u, c'.currTs u < 2 ^ 64) (lt : ts < 2 ^ 64) : (c'.setCurr t ts).Words := by
    refine ⟨timestamp, fun u => ?_⟩
    change Function.update c'.currTs t ts u < _
    rw [Function.update_apply]
    split
    · exact lt
    · exact currTs u
  have currTs (u : τ) : (c.getTs cfg).2.currTs u < 2 ^ 64 := by
    rw [getTs_currTs]
    exact words.currTs u
  -- a new batch, the batch of the thread, or no batches at all
  rcases c.getNextTs_cases cfg t with ⟨batch, full, e⟩ | ⟨batch, amid, e⟩ | ⟨single, e⟩
  · have bound := getTs_batch_lt range batch
    rw [e]
    exact ⟨Nat.lt_of_succ_lt bound, set timestamp currTs bound⟩
  · have below := sound.below batch t amid
    rw [e]
    exact ⟨words.currTs t, set words.timestamp words.currTs (by omega)⟩
  · have bound := Nat.lt_of_le_of_lt le timestamp
    rw [e]
    exact ⟨bound, set timestamp currTs bound⟩

end Clock

/-! ### Runs in which no thread starts amid a batch -/

variable (cfg) in
omit [DecidableEq τ] in
structure TsInv (s : TsState τ) : Prop where
  sound : s.clock.Sound cfg
  apart : cfg.tsBatchAlloc = true → s.clock.Apart cfg
  timestamp : s.clock.timestamp < 2 ^ 64
  currTs : ∀ t, s.clock.currTs t < 2 ^ 64
  spent : ∀ e ∈ s.log, s.clock.Spent cfg e.2
  behind : cfg.tsBatchAlloc = true → ∀ t v, (some t, v) ∈ s.log →
    s.clock.currTs t % cfg.tsBatchNum ≠ 0 → v < s.clock.currTs t
  unique : s.Unique

namespace TsInv

omit [DecidableEq τ] in
theorem init (aligned : cfg.tsBatchAlloc = true → ∀ t, (currTs t).toNat % cfg.tsBatchNum = 0) :
    TsInv cfg (⟨⟨1, fun t => (currTs t).toNat⟩, []⟩ : TsState τ) where
  sound := ⟨Nat.one_pos, fun _ => rfl, fun batch t ne => absurd (aligned batch t) ne⟩
  apart batch t _ _ ne := absurd (aligned batch t) ne
  timestamp := by change 1 < 2 ^ 64; decide
  currTs t := (currTs t).toNat_lt
  spent := nofun
  behind := nofun
  unique := ⟨List.nodup_nil, List.Pairwise.nil⟩

omit [DecidableEq τ] in
/-- A call returns a value that is new and above the earlier ones of its thread. -/
theorem record {c : Clock τ} {o : Option τ} {ts : Nat} (inv : TsInv cfg s)
    (sound : c.Sound cfg) (apart : cfg.tsBatchAlloc = true → c.Apart cfg)
    (timestamp : c.timestamp < 2 ^ 64) (currTs : ∀ t, c.currTs t < 2 ^ 64) (lt : ts < 2 ^ 64)
    (spent : ∀ e ∈ s.log, c.Spent cfg e.2) (self : c.Spent cfg ts) (new : ∀ e ∈ s.log, e.2 ≠ ts)
    (behind : cfg.tsBatchAlloc = true → ∀ t v, (some t, v) ∈ (o, ts) :: s.log →
      c.currTs t % cfg.tsBatchNum ≠ 0 → v < c.currTs t)
    (later : ∀ t v, o = some t → (some t, v) ∈ s.log → v < ts) :
    TsInv cfg ⟨c.wrap, (o, ts % 2 ^ 64) :: s.log⟩ := by
  rw [Clock.wrap_of_lt timestamp currTs, Nat.mod_eq_of_lt lt]
  refine ⟨sound, apart, timestamp, currTs, ?_, behind, ?_, ?_⟩
  · intro e he
    rcases List.mem_cons.mp he with rfl | he
    · exact self
    · exact spent e he
  · rw [List.map_cons, List.nodup_cons]
    refine ⟨fun mem => ?_, inv.unique.nodup⟩
    obtain ⟨e, he, eq⟩ := List.mem_map.mp mem
    exact new e he eq
  · refine List.pairwise_cons.mpr ⟨fun e he some same => ?_, inv.unique.increasing⟩
    obtain ⟨t, ht⟩ := Option.ne_none_iff_exists'.mp some
    obtain ⟨o', v⟩ := e
    have eq : o' = Option.some t := same.symm.trans ht
    subst eq
    exact later t v ht he

omit [DecidableEq τ] in
/-- The manager returns a value itself. -/
theorem getTs (inv : TsInv cfg s) (range : s.clock.timestamp + cfg.tsBatchNum < 2 ^ 64) :
    TsInv cfg ⟨(s.clock.getTs cfg).2.wrap, (none, (s.clock.getTs cfg).1 % 2 ^ 64) :: s.log⟩ := by
  obtain ⟨timestamp, le⟩ := Clock.getTs_lt range
  have currTs : (s.clock.getTs cfg).2.currTs = s.clock.currTs := Clock.getTs_currTs
  refine inv.record inv.sound.getTs (fun batch => (inv.apart batch).getTs) timestamp ?_
    (Nat.lt_of_le_of_lt le timestamp) (fun e he => (inv.spent e he).getTs)
    (Clock.Spent.self inv.sound) ?_ ?_ nofun
  · rw [currTs]
    exact inv.currTs
  · intro e he
    rw [Clock.getTs_time]
    exact Nat.ne_of_lt (inv.spent e he).lt
  · intro batch t v mem
    rw [currTs]
    refine inv.behind batch t v ?_
    exact (List.mem_cons.mp mem).resolve_left nofun

/-- A thread draws its next timestamp. -/
theorem getNextTs (inv : TsInv cfg s) (range : s.clock.timestamp + cfg.tsBatchNum < 2 ^ 64)
    (t : τ) : TsInv cfg ⟨(s.clock.getNextTs cfg t).2.wrap,
      (some t, (s.clock.getNextTs cfg t).1 % 2 ^ 64) :: s.log⟩ := by
  obtain ⟨timestamp, le⟩ := Clock.getTs_lt range
  have currTs : (s.clock.getTs cfg).2.currTs = s.clock.currTs := Clock.getTs_currTs
  have self := Clock.Spent.next (t := t) inv.sound inv.apart
  have spent (e : Option τ × Nat) (he : e ∈ s.log) := (inv.spent e he).getNextTs (t := t)
  have sound := inv.sound.getNextTs (t := t)
  have apart (batch : cfg.tsBatchAlloc = true) := (inv.apart batch).getNextTs (t := t) inv.sound batch
  -- what has been drawn is below the counter of the manager
  have old (u : τ) (v : Nat) (mem : (some u, v) ∈ s.log) : v < (s.clock.getTs cfg).1 := by
    rw [Clock.getTs_time]
    exact (inv.spent _ mem).lt
  -- a new batch, the batch of the thread, or no batches at all
  rcases s.clock.getNextTs_cases cfg t with ⟨batch, full, e⟩ | ⟨batch, amid, e⟩ | ⟨single, e⟩
  · rw [e] at self spent sound apart ⊢
    have bound := Clock.getTs_batch_lt range batch
    refine inv.record sound apart timestamp (fun u => ?_) (by omega) (fun e he => (spent e he).1)
      self (fun e he => (spent e he).2) (fun _ u v mem => ?_) ?_
    · change Function.update (s.clock.getTs cfg).2.currTs t _ u < _
      rw [Function.update_apply, currTs]
      split
      · exact bound
      · exact inv.currTs u
    · change Function.update (s.clock.getTs cfg).2.currTs t _ u % _ ≠ 0 →
        v < Function.update (s.clock.getTs cfg).2.currTs t _ u
      rw [Function.update_apply, currTs]
      split
      · next same =>
        intro _
        rcases List.mem_cons.mp mem with eq | mem
        · cases eq
          exact Nat.lt_succ_self _
        · exact Nat.lt_succ_of_lt (old u v mem)
      · next ne =>
        refine inv.behind batch u v ((List.mem_cons.mp mem).resolve_left fun eq => ?_)
        cases eq
        exact ne rfl
    · intro u v eq mem
      exact old u v mem
  · rw [e] at self spent sound apart ⊢
    have below := inv.sound.below batch t amid
    have := inv.timestamp
    refine inv.record sound apart inv.timestamp (fun u => ?_) (by omega) (fun e he => (spent e he).1)
      self (fun e he => (spent e he).2) (fun _ u v mem => ?_) ?_
    · change Function.update s.clock.currTs t _ u < _
      rw [Function.update_apply]
      split
      · omega
      · exact inv.currTs u
    · change Function.update s.clock.currTs t _ u % _ ≠ 0 → v < Function.update s.clock.currTs t _ u
      rw [Function.update_apply]
      split
      · next same =>
        subst same
        intro _
        rcases List.mem_cons.mp mem with eq | mem
        · cases eq
          exact Nat.lt_succ_self _
        · exact Nat.lt_succ_of_lt (inv.behind batch u v mem amid)
      · next ne =>
        refine inv.behind batch u v ((List.mem_cons.mp mem).resolve_left fun eq => ?_)
        cases eq
        exact ne rfl
    · intro u v eq mem
      cases eq
      exact inv.behind batch t v mem amid
  · rw [e] at self spent sound apart ⊢
    have bound : (s.clock.getTs cfg).1 < 2 ^ 64 := Nat.lt_of_le_of_lt le timestamp
    refine inv.record sound apart timestamp (fun u => ?_) bound (fun e he => (spent e he).1)
      self (fun e he => (spent e he).2) (fun batch => absurd batch single) ?_
    · change Function.update (s.clock.getTs cfg).2.currTs t _ u < _
      rw [Function.update_apply, currTs]
      split
      · exact bound
      · exact inv.currTs u
    · intro u v eq mem
      exact old u v mem

theorem step (inv : TsInv cfg s) {l : TsLabel τ} (range : s.InRange cfg l) :
    TsInv cfg (s.step cfg l) := by
  cases l with
  | getNextTs t => exact inv.getNextTs range t
  | getTs => exact inv.getTs range

end TsInv

/-! ### Runs in which a thread starts amid a batch -/

/-- The draws of a thread that are left until it asks the manager. -/
def drawsLeft (n v : Nat) : Nat := if v % n = 0 then 0 else n - v % n

omit [DecidableEq τ] in
theorem drawsLeft_wrap {n v : Nat} (amid : v % n ≠ 0) (pos : 0 < n) (lt : v < 2 ^ 64) :
    drawsLeft n ((v + 1) % 2 ^ 64) < drawsLeft n v := by
  have below := Nat.mod_lt v pos
  unfold drawsLeft
  rw [if_neg amid]
  by_cases last : v + 1 = 2 ^ 64
  · -- the counter of the thread wraps around to zero
    rw [last, Nat.mod_self, Nat.zero_mod, if_pos rfl]
    omega
  · rw [Nat.mod_eq_of_lt (show v + 1 < 2 ^ 64 by omega)]
    split
    · omega
    · next amid' =>
      -- the remainder goes up by one, for the batch has not ended
      have step : (v + 1) % n = v % n + 1 := by
        rw [Nat.add_mod]
        have : v % n + 1 < n := by
          rcases Nat.lt_or_eq_of_le (Nat.succ_le_of_lt below) with lt | eq
          · exact lt
          · refine absurd ?_ amid'
            have : (v + 1) % n = (v % n + 1) % n := by rw [Nat.mod_add_mod]
            rw [this, show v % n + 1 = n from eq, Nat.mod_self]
        rcases Nat.lt_or_eq_of_le (Nat.succ_le_of_lt pos) with more | one
        · rw [Nat.mod_eq_of_lt more, Nat.mod_eq_of_lt this]
        · omega
      omega

/-- If nobody has asked the manager yet, a thread that goes on drawing gets the timestamp one. -/
theorem exists_draw_one (currTs : τ → UInt64) (batch : cfg.tsBatchAlloc = true) (narrow : cfg.tsBatchNum < 2 ^ 32)
    (t : τ) (first : s.clock.timestamp = 1) (word : s.clock.currTs t < 2 ^ 64) :
    ∃ as s' more, (tsMachine cfg currTs).Along (TsState.InRange cfg) s as s' ∧
      s'.log = (some t, 1) :: (more ++ s.log) := by
  have range : s.InRange cfg (.getNextTs t) := by
    unfold TsState.InRange
    omega
  generalize left : drawsLeft cfg.tsBatchNum (s.clock.currTs t) = d
  -- the draws that the thread has left in its batch
  induction d using Nat.strong_induction_on generalizing s with
  | _ d ih =>
    rcases s.clock.getNextTs_cases cfg t with ⟨-, -, e⟩ | ⟨-, amid, e⟩ | ⟨single, -⟩
    · -- the batch is used up, and the next one begins at one
      refine ⟨[.getNextTs t], _, [], .cons range rfl (.nil _), ?_⟩
      change ((some t, (s.clock.getNextTs cfg t).1 % 2 ^ 64) :: s.log) = _
      rw [e, Clock.getTs_time, Clock.horizon, cfg.batch_cas batch]
      dsimp only
      rw [first]
      rfl
    · -- the thread goes on in its batch
      have curr : (s.step cfg (.getNextTs t)).clock.currTs t = (s.clock.currTs t + 1) % 2 ^ 64 := by
        change (s.clock.getNextTs cfg t).2.currTs t % 2 ^ 64 = _
        rw [e]
        change Function.update s.clock.currTs t _ t % _ = _
        rw [Function.update_self]
      have first' : (s.step cfg (.getNextTs t)).clock.timestamp = 1 := by
        change (s.clock.getNextTs cfg t).2.timestamp % 2 ^ 64 = _
        rw [e]
        change s.clock.timestamp % _ = _
        rw [first]
        rfl
      have fewer := drawsLeft_wrap amid cfg.batchNum_pos word
      rw [← curr, left] at fewer
      obtain ⟨as, s', more, run, log⟩ := ih _ fewer first'
        (by rw [curr]; exact Nat.mod_lt _ (by decide))
        (by unfold TsState.InRange; omega) rfl
      refine ⟨.getNextTs t :: as, s', more ++ [(some t, (s.clock.getNextTs cfg t).1 % 2 ^ 64)],
        .cons range rfl run, ?_⟩
      rw [log, List.append_assoc]
      rfl
    · exact absurd batch single

/-- **Timestamps are unique** in every run, and increase for every thread, if and only if every
thread starts at the end of a batch, or there are no batches. -/
theorem timestamps_unique (cfg : TsConfig) (narrow : cfg.tsBatchNum < 2 ^ 32)
    (currTs : τ → UInt64) :
    (∀ s, (tsMachine cfg currTs).Reachable (TsState.InRange cfg) s → s.Unique) ↔
      (cfg.tsBatchAlloc = true → ∀ t, (currTs t).toNat % cfg.tsBatchNum = 0) := by
  constructor
  · intro unique batch t
    by_contra amid
    let s : TsState τ := ⟨⟨1, fun t => (currTs t).toNat⟩, []⟩
    have range : s.InRange cfg (.getNextTs t) := by
      change 1 + cfg.tsBatchNum < 2 ^ 64
      omega
    have drawn : s.clock.getNextTs cfg t =
        ((currTs t).toNat, s.clock.setCurr t ((currTs t).toNat + 1)) := by
      unfold Clock.getNextTs
      rw [if_pos batch, if_neg amid]
    -- the thread draws on until it gets the value one
    obtain ⟨as, s', more, run, log⟩ := exists_draw_one currTs (s := s.step cfg (.getNextTs t))
      batch narrow t (by
        change (s.clock.getNextTs cfg t).2.timestamp % 2 ^ 64 = 1
        rw [drawn]
        rfl) (Nat.mod_lt _ (by decide))
    have reached : (tsMachine cfg currTs).Reachable (TsState.InRange cfg) s' :=
      ⟨s, _, rfl, .cons range rfl run⟩
    have increasing := (unique s' reached).increasing
    rw [log] at increasing
    -- the first value was not zero, and the last one is one
    have earlier : (some t, (s.clock.getNextTs cfg t).1 % 2 ^ 64) ∈
        more ++ (s.step cfg (.getNextTs t)).log :=
      List.mem_append_right _ List.mem_cons_self
    have lt := (List.pairwise_cons.mp increasing).1 _ earlier nofun rfl
    rw [drawn] at lt
    dsimp only at lt
    rw [Nat.mod_eq_of_lt (currTs t).toNat_lt] at lt
    have zero : (currTs t).toNat = 0 := by omega
    exact amid (by rw [zero, Nat.zero_mod])
  · intro aligned s reached
    have inv : TsInv cfg s := reached.invariant (fun s start => start ▸ TsInv.init aligned)
      fun s l s' inv range next => Option.some.inj next ▸ inv.step range
    exact inv.unique

/-- Batches of four timestamps. -/
def batchOfFour : TsConfig := ⟨.TS_CAS, true, 4, fun _ => rfl, Nat.succ_pos 3⟩

instance (cfg : TsConfig) (s : TsState τ) (l : TsLabel τ) : Decidable (s.InRange cfg l) :=
  inferInstanceAs (Decidable (_ < _))

/-- Two threads that start with zero draw from batches of four, and the manager is called. -/
theorem timestamps_unique_batches :
    ∃ s, (tsMachine batchOfFour fun _ : Bool => 0).Reachable (TsState.InRange batchOfFour) s ∧
      s.log.map Prod.snd = [13, 9, 5, 3, 2, 1] ∧ s.Unique := by
  obtain ⟨s, run, log⟩ := (tsMachine batchOfFour fun _ : Bool => 0).exists_along
    (TsState.InRange batchOfFour) ⟨⟨1, fun _ => (0 : UInt64).toNat⟩, []⟩
    [.getNextTs true, .getNextTs true, .getNextTs true, .getTs, .getNextTs false, .getNextTs true]
    (fun s => s.log.map Prod.snd) [13, 9, 5, 3, 2, 1] (by decide)
  have reached : (tsMachine batchOfFour fun _ : Bool => 0).Reachable
      (TsState.InRange batchOfFour) s := ⟨_, _, rfl, run⟩
  have unique := (timestamps_unique batchOfFour (by decide) fun _ : Bool => 0).mpr (fun _ _ => rfl)
  exact ⟨s, reached, log, unique s reached⟩

/-- A thread whose memory has a five draws it, and the other one draws it in its second batch. -/
theorem timestamps_repeat :
    ∃ s, (tsMachine batchOfFour fun t : Bool => if t then 0 else 5).Reachable
      (TsState.InRange batchOfFour) s ∧ ¬ s.Unique := by
  obtain ⟨s, run, log⟩ := (tsMachine batchOfFour fun t : Bool => if t then 0 else 5).exists_along
    (TsState.InRange batchOfFour) ⟨⟨1, fun t => (if t then 0 else 5 : UInt64).toNat⟩, []⟩
    [.getNextTs false, .getNextTs true, .getNextTs true, .getNextTs true, .getNextTs true]
    (fun s => s.log.map Prod.snd) [5, 3, 2, 1, 5] (by decide)
  refine ⟨s, ⟨_, _, rfl, run⟩, fun unique => ?_⟩
  have nodup := unique.nodup
  rw [log] at nodup
  exact absurd nodup (by decide)

end DBx1000
