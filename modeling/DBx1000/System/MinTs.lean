import Mathlib.Algebra.Order.Ring.WithTop
import Mathlib.Order.WithBot
import DBx1000.System.Timestamps

/-!
# The bound of the garbage collection

`Manager::get_min_ts` and `Manager::add_ts`, and the order in which `thread_t::run` calls them:
a thread draws a timestamp, publishes it, runs its transaction and draws the next one. Every
load and store of `all_ts` and of `_min_ts` is a step, so the loop of `get_min_ts` reads an
entry twice. `UINT64_MAX` is `⊤`.

## Main result

`min_ts_safe`: what `get_min_ts` returns is not above the timestamp of any transaction, in the
runs in which the loop does not come between the first draw of a thread and its publication,
and no thread publishes between the two loads of its entry.

## Proof strategy

A value is `Below` a thread if it is not above anything that the thread has drawn or will
draw. This stays so, whatever happens later. An entry is below its thread once it has been
published, and the loop starts with the entry of the thread that executes it.
-/

namespace DBx1000

open Transition

/-- Where a thread stands in `thread_t::run`. -/
inductive RunPc
  | idle
  /-- Behind `set_ts(get_next_ts())`. -/
  | drawn (ts : Nat)
  /-- Behind `add_ts`. -/
  | running (ts : Nat)
  deriving DecidableEq

/-- Where thread 0 stands in the part of `get_min_ts` that computes the minimum. -/
inductive ScanPc
  /-- Before `*all_ts[i] < min`, or behind the loop. -/
  | compare (i : Nat) (min : WithTop Nat)
  /-- Before `min = *all_ts[i]`. -/
  | assign (i : Nat) (min : WithTop Nat)
  /-- Before `return _min_ts`. -/
  | load
  deriving DecidableEq

structure MinTsState (n : Nat) where
  clock : Clock (Fin n)
  allTs : Fin n → WithTop Nat
  minTs : WithTop Nat
  pc : Fin n → RunPc
  scan : Option ScanPc
  /-- What the last step has returned, if it was the last one of a call of `get_min_ts`. -/
  returned : Option (WithTop Nat)

inductive MinTsLabel (n : Nat)
  | getNextTs (t : Fin n)
  | addTs (t : Fin n)
  /-- A call of `get_min_ts` that does not compute the minimum. -/
  | getMinTs (t : Fin n)
  /-- A call by thread 0 that does. -/
  | scan
  | next
  | finish (t : Fin n)

namespace MinTsState

variable {n : Nat}

/-- A thread that does not execute the loop. -/
def free (s : MinTsState n) (t : Fin n) : Prop := t.val = 0 → s.scan = none

instance (s : MinTsState n) (t : Fin n) : Decidable (s.free t) :=
  inferInstanceAs (Decidable (_ → _))

def goto (s : MinTsState n) (t : Fin n) (pc : RunPc) : MinTsState n :=
  { s with pc := Function.update s.pc t pc, returned := none }

/-- `assert(ts >= *all_ts[thd_id] || *all_ts[thd_id] == UINT64_MAX); *all_ts[thd_id] = ts;`. -/
def addTs (s : MinTsState n) (t : Fin n) (ts : Nat) : Option (MinTsState n) :=
  if s.allTs t ≤ ts ∨ s.allTs t = ⊤ then
    some { s.goto t (.running ts) with allTs := Function.update s.allTs t ts }
  else none

/-- A step of the loop in `get_min_ts`, and of what is behind it. -/
def nextScan (s : MinTsState n) : Option (MinTsState n) :=
  match s.scan with
  | none => none
  | some (.compare i min) =>
    if h : i < n then
      some { s with
        scan := some (if s.allTs ⟨i, h⟩ < min then .assign i min else .compare (i + 1) min)
        returned := none }
    else some { s with
      minTs := if s.minTs < min then min else s.minTs
      scan := some .load
      returned := none }
  | some (.assign i _) =>
    if h : i < n then
      some { s with scan := some (.compare (i + 1) (s.allTs ⟨i, h⟩)), returned := none }
    else none
  | some .load => some { s with scan := none, returned := some s.minTs }

/-- `set_ts(get_next_ts())`, computed in 64 bits. -/
def draw (cfg : TsConfig) (s : MinTsState n) (t : Fin n) : MinTsState n :=
  let (ts, c) := s.clock.getNextTs cfg t
  { s.goto t (.drawn (ts % 2 ^ 64)) with clock := c.wrap }

def step (cfg : TsConfig) (s : MinTsState n) : MinTsLabel n → Option (MinTsState n)
  | .getNextTs t => match s.pc t with
    | .idle => some (s.draw cfg t)
    | _ => none
  | .addTs t => match s.pc t with
    | .drawn ts => s.addTs t ts
    | _ => none
  | .getMinTs t => match s.pc t with
    | .running _ => if s.free t then some { s with returned := some s.minTs } else none
    | _ => none
  | .scan =>
    if h : 0 < n then match s.pc ⟨0, h⟩ with
      | .running _ => if s.scan = none then
          some { s with scan := some (.compare 0 ⊤), returned := none }
        else none
      | _ => none
    else none
  | .next => s.nextScan
  | .finish t => match s.pc t with
    | .running _ => if s.free t then some (s.goto t .idle) else none
    | _ => none

/-- The loop does not come to a thread between its first draw and its first publication, and no
thread publishes a timestamp between the two loads of its entry. The counter of the manager
does not pass the end of 64 bits. -/
def Covered (cfg : TsConfig) (s : MinTsState n) : MinTsLabel n → Prop
  | .getNextTs _ => s.clock.timestamp + cfg.tsBatchNum < 2 ^ 64
  | .next => ∀ i min, s.scan = some (.compare i min) →
      ∀ h : i < n, s.allTs ⟨i, h⟩ = ⊤ → ∀ ts, s.pc ⟨i, h⟩ ≠ .drawn ts
  | .addTs t => ∀ min, s.scan ≠ some (.assign t min)
  | _ => True

/-- What `get_min_ts` has just returned is not above the timestamp of a transaction that has
drawn it and has not finished. -/
def Safe (s : MinTsState n) : Prop :=
  ∀ v, s.returned = some v → ∀ t ts, s.pc t = .drawn ts ∨ s.pc t = .running ts → v ≤ ts

end MinTsState

/-- The manager as `init` leaves it, and threads that start with what is in the memory of their
objects. -/
def minTsMachine (cfg : TsConfig) {n : Nat} (currTs : Fin n → UInt64) :
    Machine (MinTsState n) (MinTsLabel n) where
  init s := s = {
    clock := ⟨1, fun t => (currTs t).toNat⟩
    allTs := fun _ => ⊤
    minTs := (0 : Nat)
    pc := fun _ => .idle
    scan := none
    returned := none }
  step s l := s.step cfg l

namespace MinTsState

variable {n : Nat} {cfg : TsConfig} {s s' : MinTsState n} {t : Fin n} {m m' : WithTop Nat}

/-! ### Values below a thread -/

/-- The thread has a transaction with the timestamp. -/
def Active (s : MinTsState n) (t : Fin n) (ts : Nat) : Prop :=
  s.pc t = .drawn ts ∨ s.pc t = .running ts

variable (cfg) in
/-- The value is not above what the thread has drawn or will draw. -/
structure Below (s : MinTsState n) (t : Fin n) (m : WithTop Nat) : Prop where
  active : ∀ ts, s.Active t ts → m ≤ ts
  horizon : m ≤ s.clock.horizon cfg
  batch : cfg.tsBatchAlloc = true → s.clock.currTs t % cfg.tsBatchNum ≠ 0 → m ≤ s.clock.currTs t

theorem Below.mono (h : s.Below cfg t m) (le : m' ≤ m) : s.Below cfg t m' :=
  ⟨fun ts active => le.trans (h.active ts active), le.trans h.horizon,
    fun batch amid => le.trans (h.batch batch amid)⟩

theorem Below.keep (h : s.Below cfg t m) (active : ∀ ts, s'.Active t ts → s.Active t ts)
    (clock : s'.clock = s.clock) : s'.Below cfg t m := by
  refine ⟨fun ts hts => h.active ts (active ts hts), ?_, ?_⟩
  · rw [clock]
    exact h.horizon
  · rw [clock]
    exact h.batch

theorem active_goto {u : Fin n} {pc : RunPc} {ts : Nat}
    (active : (s.goto u pc).Active t ts) : t = u ∧ (pc = .drawn ts ∨ pc = .running ts) ∨
      s.Active t ts := by
  unfold Active goto at active
  dsimp only at active
  rw [Function.update_apply] at active
  split at active
  · next same => exact .inl ⟨same, active⟩
  · exact .inr active

/-- What is below a thread stays below it when a timestamp is drawn. -/
theorem Below.draw (h : s.Below cfg t m) (sound : s.clock.Sound cfg) (words : s.clock.Words)
    {u : Fin n} (range : s.Covered cfg (.getNextTs u)) : (s.draw cfg u).Below cfg t m := by
  obtain ⟨lt, words⟩ := words.getNextTs (t := u) sound range
  have mono {a b : Nat} (le : a ≤ b) : (a : WithTop Nat) ≤ b := WithTop.coe_le_coe.mpr le
  have clock : (s.draw cfg u).clock = (s.clock.getNextTs cfg u).2 := words.wrap
  constructor
  case active =>
    intro ts active
    rcases active_goto active with ⟨rfl, drawn | running⟩ | old
    · have drawn : ts = (s.clock.getNextTs cfg t).1 % 2 ^ 64 := (RunPc.drawn.inj drawn).symm
      rw [drawn, Nat.mod_eq_of_lt lt]
      -- the thread draws from its batch or from the manager
      rcases s.clock.getNextTs_cases cfg t with ⟨-, -, e⟩ | ⟨batch, amid, e⟩ | ⟨-, e⟩
      · rw [e, Clock.getTs_time]
        exact h.horizon
      · rw [e]
        exact h.batch batch amid
      · rw [e, Clock.getTs_time]
        exact h.horizon
    · cases running
    · exact h.active ts old
  case horizon =>
    rw [clock]
    exact h.horizon.trans (mono Clock.horizon_getNextTs)
  -- the batch of another thread stays, and a new one begins at the time of the manager
  case batch =>
    intro batch
    rw [clock]
    rcases s.clock.getNextTs_cases cfg u with ⟨-, -, e⟩ | ⟨-, amid, e⟩ | ⟨single, -⟩
    · rw [e]
      change Function.update (s.clock.getTs cfg).2.currTs u _ t % _ ≠ 0 →
        m ≤ (Function.update (s.clock.getTs cfg).2.currTs u _ t : Nat)
      rw [Function.update_apply, Clock.getTs_currTs]
      split
      · rw [Clock.getTs_time]
        exact fun _ => h.horizon.trans (mono (Nat.le_succ _))
      · exact h.batch batch
    · rw [e]
      change Function.update s.clock.currTs u _ t % _ ≠ 0 →
        m ≤ (Function.update s.clock.currTs u _ t : Nat)
      rw [Function.update_apply]
      split
      · next same =>
        subst same
        exact fun _ => (h.batch batch amid).trans (mono (Nat.le_succ _))
      · exact h.batch batch
    · exact absurd batch single

/-- A thread is above the timestamp that it has drawn. -/
theorem below_drawn (sound : s.clock.Sound cfg) (words : s.clock.Words)
    (range : s.Covered cfg (.getNextTs t)) :
    (s.draw cfg t).Below cfg t ((s.clock.getNextTs cfg t).1 % 2 ^ 64 : Nat) := by
  obtain ⟨lt, words⟩ := words.getNextTs (t := t) sound range
  have mono {a b : Nat} (le : a ≤ b) : (a : WithTop Nat) ≤ b := WithTop.coe_le_coe.mpr le
  have clock : (s.draw cfg t).clock = (s.clock.getNextTs cfg t).2 := words.wrap
  have pc : (s.draw cfg t).pc t = .drawn ((s.clock.getNextTs cfg t).1 % 2 ^ 64) :=
    Function.update_self ..
  constructor
  -- the thread has no other timestamp
  case active =>
    intro ts active
    unfold Active at active
    rw [pc] at active
    rcases active with drawn | running
    · cases drawn
      exact le_refl _
    · cases running
  case horizon =>
    rw [clock, Nat.mod_eq_of_lt lt]
    exact mono (Nat.le_of_lt sound.getNextTs_lt)
  case batch =>
    intro batch _
    rw [clock, Nat.mod_eq_of_lt lt]
    apply mono
    -- its next timestamp is the successor
    rcases s.clock.getNextTs_cases cfg t with ⟨-, -, e⟩ | ⟨-, -, e⟩ | ⟨single, -⟩
    · rw [e]
      change _ ≤ Function.update (s.clock.getTs cfg).2.currTs t _ t
      rw [Function.update_self]
      exact Nat.le_succ _
    · rw [e]
      change _ ≤ Function.update s.clock.currTs t _ t
      rw [Function.update_self]
      exact Nat.le_succ _
    · exact absurd batch single

/-! ### The invariant -/

variable (cfg) in
/-- The minimum of the entries before an index. -/
structure Passed (s : MinTsState n) (i : Nat) (min : WithTop Nat) : Prop where
  below : ∀ t : Fin n, t.val < i → s.Below cfg t min
  horizon : 0 < i → min ≤ s.clock.horizon cfg

variable (cfg) in
/-- What thread 0 knows in its loop; it has published its own timestamp. -/
def Scanned (s : MinTsState n) : ScanPc → Prop
  | .compare i min => s.Passed cfg i min
  | .assign i min => s.Passed cfg i min ∧ ∀ h : i < n, s.allTs ⟨i, h⟩ < min
  | .load => True

variable (cfg) in
structure Inv (s : MinTsState n) : Prop where
  sound : s.clock.Sound cfg
  words : s.clock.Words
  own : ∀ t ts, s.Active t ts → s.Below cfg t ts
  minTs : ∀ t, s.Below cfg t s.minTs
  published : ∀ t, s.allTs t ≠ ⊤ → s.Below cfg t (s.allTs t)
  running : ∀ t ts, s.pc t = .running ts → s.allTs t ≠ ⊤
  unpublished : cfg.tsBatchAlloc = true → ∀ t, s.allTs t = ⊤ → s.pc t = .idle →
    s.clock.currTs t % cfg.tsBatchNum = 0
  scanned : ∀ pc, s.scan = some pc → s.Scanned cfg pc
  scanner : ∀ h : 0 < n, s.scan ≠ none → ∃ ts, s.pc ⟨0, h⟩ = .running ts
  returned : ∀ v, s.returned = some v → v = s.minTs

theorem Passed.keep {i : Nat} (h : s.Passed cfg i m)
    (below : ∀ t, s.Below cfg t m → s'.Below cfg t m)
    (horizon : s.clock.horizon cfg ≤ s'.clock.horizon cfg) : s'.Passed cfg i m :=
  ⟨fun t lt => below t (h.below t lt),
    fun pos => (h.horizon pos).trans (WithTop.coe_le_coe.mpr horizon)⟩

namespace Inv

theorem init {currTs : Fin n → UInt64}
    (aligned : cfg.tsBatchAlloc = true → ∀ t, (currTs t).toNat % cfg.tsBatchNum = 0)
    (start : (minTsMachine cfg currTs).init s) : s.Inv cfg := by
  subst start
  have least (k : Nat) : ((0 : Nat) : WithTop Nat) ≤ k := WithTop.coe_le_coe.mpr (Nat.zero_le k)
  exact {
    sound := ⟨Nat.one_pos, fun _ => rfl, fun batch t amid => absurd (aligned batch t) amid⟩
    words := ⟨by change 1 < 2 ^ 64; decide, fun t => (currTs t).toNat_lt⟩
    own := fun t ts active => by rcases active with active | active <;> cases active
    minTs := fun t => ⟨fun ts _ => least ts, least _, fun _ _ => least _⟩
    published := fun t ne => absurd rfl ne
    running := nofun
    unpublished := fun batch t _ _ => aligned batch t
    scanned := nofun
    scanner := fun _ ne => absurd rfl ne
    returned := nofun }

theorem safe (inv : s.Inv cfg) : s.Safe := by
  intro v hv t ts active
  rw [inv.returned v hv]
  exact (inv.minTs t).active ts active

/-- The loop, while another thread does something that keeps what is below the threads. -/
theorem keepScan (inv : s.Inv cfg) (below : ∀ t m, s.Below cfg t m → s'.Below cfg t m)
    (horizon : s.clock.horizon cfg ≤ s'.clock.horizon cfg) (scan : s'.scan = s.scan)
    (entry : ∀ i min, s.scan = some (.assign i min) →
      ∀ h : i < n, s.allTs ⟨i, h⟩ < min → s'.allTs ⟨i, h⟩ < min) :
    ∀ pc, s'.scan = some pc → s'.Scanned cfg pc := by
  intro pc some
  rw [scan] at some
  have scanned := inv.scanned pc some
  cases pc with
  | compare i min => exact Passed.keep scanned (fun t => below t min) horizon
  | assign i min =>
    exact ⟨scanned.1.keep (fun t => below t min) horizon, fun h => entry i min some h (scanned.2 h)⟩
  | load => trivial

/-- A thread draws a timestamp. -/
theorem draw (inv : s.Inv cfg) (idle : s.pc t = .idle) (range : s.Covered cfg (.getNextTs t)) :
    (s.draw cfg t).Inv cfg := by
  have words := (inv.words.getNextTs (t := t) inv.sound range).2
  have clock : (s.draw cfg t).clock = (s.clock.getNextTs cfg t).2 := words.wrap
  have below (u : Fin n) (m : WithTop Nat) (h : s.Below cfg u m) : (s.draw cfg t).Below cfg u m :=
    h.draw inv.sound inv.words range
  constructor
  case sound =>
    rw [clock]
    exact inv.sound.getNextTs
  case words =>
    rw [clock]
    exact words
  case own =>
    intro u ts active
    rcases active_goto active with ⟨rfl, drawn | running⟩ | old
    · cases drawn
      exact below_drawn inv.sound inv.words range
    · cases running
    · exact below u ts (inv.own u ts old)
  case minTs => exact fun u => below u _ (inv.minTs u)
  case published => exact fun u ne => below u _ (inv.published u ne)
  case running =>
    intro u ts
    change Function.update s.pc t _ u = _ → _
    rw [Function.update_apply]
    split
    · nofun
    · exact inv.running u ts
  -- only a thread that has a transaction is amid a batch it has not published
  case unpublished =>
    intro batch u top
    rw [clock]
    change Function.update s.pc t _ u = _ → _
    rw [Function.update_apply]
    split
    · nofun
    · next ne =>
      intro idle
      have same : (s.clock.getNextTs cfg t).2.currTs u = s.clock.currTs u := by
        rcases s.clock.getNextTs_cases cfg t with ⟨-, -, e⟩ | ⟨-, -, e⟩ | ⟨single, -⟩
        · rw [e]
          exact (Function.update_of_ne ne ..).trans (congrFun Clock.getTs_currTs u)
        · rw [e]
          exact Function.update_of_ne ne ..
        · exact absurd batch single
      rw [same]
      exact inv.unpublished batch u top idle
  case scanned =>
    refine inv.keepScan below ?_ rfl fun _ _ _ _ lt => lt
    rw [clock]
    exact Clock.horizon_getNextTs
  -- the scanner runs a transaction, so it is not the thread that draws
  case scanner =>
    intro h some
    obtain ⟨ts, running⟩ := inv.scanner h some
    refine ⟨ts, ?_⟩
    change Function.update s.pc t _ _ = _
    rw [Function.update_of_ne]
    · exact running
    · rintro rfl
      rw [idle] at running
      cases running
  case returned => exact nofun

/-- A thread publishes its timestamp. -/
theorem addTs {ts : Nat} (inv : s.Inv cfg) (drawn : s.pc t = .drawn ts)
    (covered : s.Covered cfg (.addTs t)) :
    Inv cfg { s.goto t (.running ts) with allTs := Function.update s.allTs t ts } := by
  -- the timestamp was active before it is published
  have below (u : Fin n) (m : WithTop Nat) (h : s.Below cfg u m) : Below cfg
      { s.goto t (.running ts) with allTs := Function.update s.allTs t ts } u m := by
    refine h.keep (fun x active => ?_) rfl
    rcases active_goto active with ⟨rfl, new | new⟩ | old
    · cases new
    · cases new
      exact .inl drawn
    · exact old
  constructor
  case sound => exact inv.sound
  case words => exact inv.words
  case own =>
    intro u x active
    rcases active_goto active with ⟨rfl, new | new⟩ | old
    · cases new
    · cases new
      exact below _ _ (inv.own _ _ (.inl drawn))
    · exact below u x (inv.own u x old)
  case minTs => exact fun u => below u _ (inv.minTs u)
  case published =>
    intro u
    dsimp only
    rw [Function.update_apply]
    split
    · next same =>
      subst same
      exact fun _ => below u ts (inv.own u ts (.inl drawn))
    · exact fun ne => below u _ (inv.published u ne)
  case running =>
    intro u x
    change Function.update s.pc t _ u = _ → Function.update s.allTs t _ u ≠ _
    rw [Function.update_apply, Function.update_apply]
    split
    · exact fun _ => WithTop.coe_ne_top
    · exact inv.running u x
  case unpublished =>
    intro batch u
    change Function.update s.allTs t _ u = _ → Function.update s.pc t _ u = _ → _
    rw [Function.update_apply, Function.update_apply]
    split
    · exact fun top => absurd top WithTop.coe_ne_top
    · exact inv.unpublished batch u
  case scanned =>
    refine inv.keepScan below (le_refl _) rfl fun i min some h lt => ?_
    -- the entry is not the one that is loaded next
    dsimp only
    rw [Function.update_of_ne]
    · exact lt
    · rintro rfl
      exact covered min some
  case scanner =>
    intro h some
    obtain ⟨x, running⟩ := inv.scanner h some
    refine ⟨x, ?_⟩
    change Function.update s.pc t _ _ = _
    rw [Function.update_of_ne]
    · exact running
    · rintro rfl
      rw [drawn] at running
      cases running
  case returned => exact nofun

/-- A transaction ends. -/
theorem finish {ts : Nat} (inv : s.Inv cfg) (running : s.pc t = .running ts) (free : s.free t) :
    (s.goto t .idle).Inv cfg := by
  -- an active timestamp was active before
  have active {u : Fin n} {x : Nat} (new : (s.goto t .idle).Active u x) : s.Active u x := by
    rcases active_goto new with ⟨-, new | new⟩ | old
    · cases new
    · cases new
    · exact old
  have below (u : Fin n) (m : WithTop Nat) (h : s.Below cfg u m) :
      (s.goto t .idle).Below cfg u m := h.keep (fun _ => active) rfl
  constructor
  case sound => exact inv.sound
  case words => exact inv.words
  case own => exact fun u x new => below u x (inv.own u x (active new))
  case minTs => exact fun u => below u _ (inv.minTs u)
  case published => exact fun u ne => below u _ (inv.published u ne)
  case running =>
    intro u x
    change Function.update s.pc t _ u = _ → _
    rw [Function.update_apply]
    split
    · nofun
    · exact inv.running u x
  case unpublished =>
    intro batch u top
    change Function.update s.pc t _ u = _ → _
    rw [Function.update_apply]
    split
    · next same =>
      subst same
      exact absurd top (inv.running u ts running)
    · exact inv.unpublished batch u top
  case scanned => exact inv.keepScan below (le_refl _) rfl fun _ _ _ _ lt => lt
  case scanner =>
    intro h some
    obtain ⟨x, zero⟩ := inv.scanner h some
    refine ⟨x, ?_⟩
    change Function.update s.pc t _ _ = _
    rw [Function.update_of_ne]
    · exact zero
    · rintro rfl
      -- the thread that scans does not finish
      exact some (free rfl)
  case returned => exact nofun

/-- What happens in the loop, and at a return. -/
theorem scanStep (inv : s.Inv cfg) {scan : Option ScanPc} {minTs : WithTop Nat}
    {returned : Option (WithTop Nat)} (min : ∀ t, s.Below cfg t minTs)
    (scanned : ∀ pc, scan = some pc → s.Scanned cfg pc)
    (scanner : ∀ h : 0 < n, scan ≠ none → ∃ ts, s.pc ⟨0, h⟩ = .running ts)
    (result : ∀ v, returned = some v → v = minTs) :
    Inv cfg { s with scan := scan, minTs := minTs, returned := returned } := by
  have below (u : Fin n) (m : WithTop Nat) (h : s.Below cfg u m) : Below cfg
      { s with scan := scan, minTs := minTs, returned := returned } u m :=
    h.keep (fun _ active => active) rfl
  refine ⟨inv.sound, inv.words, fun u x active => below u x (inv.own u x active),
    fun u => below u _ (min u), fun u ne => below u _ (inv.published u ne), inv.running,
    inv.unpublished, fun pc some => ?_, scanner, result⟩
  have scanned := scanned pc some
  cases pc with
  | compare i min => exact Passed.keep scanned (fun t => below t min) (le_refl _)
  | assign i min => exact ⟨scanned.1.keep (fun t => below t min) (le_refl _), scanned.2⟩
  | load => trivial

/-- The loop comes to the entry of a thread that is below the minimum, or goes on. -/
theorem pass (inv : s.Inv cfg) {i : Nat} {min : WithTop Nat} (h : i < n)
    (passed : s.Passed cfg i min) (ge : ¬ s.allTs ⟨i, h⟩ < min) (pos : i = 0 → s.allTs ⟨i, h⟩ ≠ ⊤)
    (covered : s.allTs ⟨i, h⟩ = ⊤ → ∀ ts, s.pc ⟨i, h⟩ ≠ .drawn ts) :
    s.Passed cfg (i + 1) min := by
  have le := not_lt.mp ge
  have below : s.Below cfg ⟨i, h⟩ min := by
    by_cases top : s.allTs ⟨i, h⟩ = ⊤
    · -- nothing was published, so the thread has not drawn a timestamp yet
      have idle : s.pc ⟨i, h⟩ = .idle := by
        cases pc : s.pc ⟨i, h⟩ with
        | idle => rfl
        | drawn ts => exact absurd pc (covered top ts)
        | running ts => exact absurd top (inv.running _ ts pc)
      have horizon := passed.horizon (Nat.pos_of_ne_zero fun zero => pos zero top)
      refine ⟨fun ts active => ?_, horizon, fun batch amid => ?_⟩
      · rcases active with active | active <;> rw [idle] at active <;> cases active
      · exact absurd (inv.unpublished batch _ top idle) amid
    · exact (inv.published _ top).mono le
  refine ⟨fun t lt => ?_, fun _ => below.horizon⟩
  rcases Nat.lt_or_eq_of_le (Nat.le_of_lt_succ lt) with lt | eq
  · exact passed.below t lt
  · have : t = ⟨i, h⟩ := Fin.ext eq
    rw [this]
    exact below

/-- The loop takes the entry of a thread as the minimum. -/
theorem take (inv : s.Inv cfg) {i : Nat} {min : WithTop Nat} (h : i < n)
    (passed : s.Passed cfg i min) (lt : s.allTs ⟨i, h⟩ < min) :
    s.Passed cfg (i + 1) (s.allTs ⟨i, h⟩) := by
  have published := inv.published _ (lt_top_of_lt lt).ne
  refine ⟨fun t le => ?_, fun _ => published.horizon⟩
  rcases Nat.lt_or_eq_of_le (Nat.le_of_lt_succ le) with before | eq
  · exact (passed.below t before).mono (le_of_lt lt)
  · have : t = ⟨i, h⟩ := Fin.ext eq
    rw [this]
    exact published

/-- A step of thread 0 in the loop. -/
theorem nextScan (inv : s.Inv cfg) (covered : s.Covered cfg .next) (next : s.nextScan = some s') :
    s'.Inv cfg := by
  unfold MinTsState.nextScan at next
  cases at_pc : s.scan with
  | none => rw [at_pc] at next; cases next
  | some pc =>
    rw [at_pc] at next
    have scanned := inv.scanned pc at_pc
    have zero (h : 0 < n) := inv.scanner h (by rw [at_pc]; nofun)
    cases pc with
    | compare i min =>
      dsimp only at next
      split at next
      · -- the next entry is compared with the minimum so far
        next h =>
        cases next
        refine inv.scanStep inv.minTs (fun pc some => ?_) (fun h _ => zero h) nofun
        cases some
        split
        · next lt => exact ⟨scanned, fun _ => lt⟩
        · next ge =>
          refine inv.pass h scanned ge (fun first => ?_) (covered i min at_pc h)
          subst first
          obtain ⟨ts, running⟩ := zero h
          exact inv.running _ ts running
      · -- all entries have been passed, so the minimum is below every thread
        next last =>
        cases next
        refine inv.scanStep (fun t => ?_) (fun pc some => by cases some; trivial)
          (fun h _ => zero h) nofun
        split
        · exact scanned.below t (Nat.lt_of_lt_of_le t.isLt (Nat.not_lt.mp last))
        · exact inv.minTs t
    -- a smaller entry becomes the minimum
    | assign i min =>
      dsimp only at next
      split at next
      · next h =>
        cases next
        refine inv.scanStep inv.minTs (fun pc some => ?_) (fun h _ => zero h) nofun
        cases some
        exact inv.take h scanned.1 (scanned.2 h)
      · cases next
    | load =>
      cases next
      exact inv.scanStep inv.minTs nofun (fun _ ne => absurd rfl ne)
        fun v some => (Option.some.inj some).symm

theorem step (inv : s.Inv cfg) {l : MinTsLabel n} (covered : s.Covered cfg l)
    (next : s.step cfg l = some s') : s'.Inv cfg := by
  cases l with
  | getNextTs t =>
    dsimp only [MinTsState.step] at next
    cases pc : s.pc t with
    | idle =>
      rw [pc] at next
      cases next
      exact inv.draw pc covered
    | drawn ts => rw [pc] at next; cases next
    | running ts => rw [pc] at next; cases next
  | addTs t =>
    dsimp only [MinTsState.step] at next
    cases pc : s.pc t with
    | idle => rw [pc] at next; cases next
    | drawn ts =>
      rw [pc] at next
      dsimp only [MinTsState.addTs] at next
      split at next
      · cases next
        exact inv.addTs pc covered
      · cases next
    | running ts => rw [pc] at next; cases next
  | getMinTs t =>
    dsimp only [MinTsState.step] at next
    cases pc : s.pc t with
    | idle => rw [pc] at next; cases next
    | drawn ts => rw [pc] at next; cases next
    | running ts =>
      rw [pc] at next
      dsimp only at next
      split at next
      · cases next
        exact inv.scanStep inv.minTs inv.scanned inv.scanner fun v some => (Option.some.inj some).symm
      · cases next
  | scan =>
    dsimp only [MinTsState.step] at next
    split at next
    · next h =>
      split at next
      · next ts running =>
        split at next
        · cases next
          refine inv.scanStep inv.minTs (fun pc some => ?_) (fun _ _ => ⟨ts, running⟩) nofun
          cases some
          exact ⟨fun t lt => absurd lt (Nat.not_lt_zero _), fun pos => absurd pos (Nat.lt_irrefl 0)⟩
        · cases next
      · cases next
    · cases next
  | next => exact inv.nextScan covered next
  | finish t =>
    dsimp only [MinTsState.step] at next
    cases pc : s.pc t with
    | idle => rw [pc] at next; cases next
    | drawn ts => rw [pc] at next; cases next
    | running ts =>
      rw [pc] at next
      dsimp only at next
      split at next
      · next free =>
        cases next
        exact inv.finish pc free
      · cases next

end Inv

end MinTsState

variable {n : Nat} {cfg : TsConfig}

/-- **The bound of the garbage collection is safe**, in every run whose scans are covered. -/
theorem min_ts_safe {currTs : Fin n → UInt64}
    (aligned : cfg.tsBatchAlloc = true → ∀ t, (currTs t).toNat % cfg.tsBatchNum = 0)
    {s : MinTsState n} (reached : (minTsMachine cfg currTs).Reachable (MinTsState.Covered cfg) s) :
    s.Safe :=
  (reached.invariant (fun _ start => MinTsState.Inv.init aligned start)
    fun _ _ _ inv covered next => inv.step covered next).safe

/-! ### Runs of two threads -/

/-- Timestamps one by one, by `TS_CAS`. -/
def tsCas : TsConfig := ⟨.TS_CAS, false, 1, fun _ => rfl, by decide⟩

namespace MinTsState

/-- No thread is about to publish in the loop, and none publishes; this is simpler to decide. -/
def Quiet (cfg : TsConfig) (s : MinTsState n) : MinTsLabel n → Prop
  | .next => ∀ t, s.pc t = .idle ∨ s.allTs t ≠ ⊤
  | .addTs _ => s.scan = none
  | .getNextTs _ => s.clock.timestamp + cfg.tsBatchNum < 2 ^ 64
  | _ => True

instance (s : MinTsState n) (l : MinTsLabel n) : Decidable (s.Quiet cfg l) := by
  cases l <;> unfold Quiet <;> infer_instance

theorem Quiet.covered {s : MinTsState n} {l : MinTsLabel n} (quiet : s.Quiet cfg l) :
    s.Covered cfg l := by
  cases l with
  | next =>
    intro i min _ h top ts drawn
    rcases quiet ⟨i, h⟩ with idle | entry
    · rw [drawn] at idle
      cases idle
    · exact entry top
  | addTs t =>
    intro min scan
    rw [show s.scan = none from quiet] at scan
    cases scan
  | getNextTs t => exact quiet
  | getMinTs t => trivial
  | scan => trivial
  | finish t => trivial

end MinTsState

/-- Both threads publish, and then the loop computes the minimum. -/
theorem min_ts_safe_two : ∃ s, (minTsMachine tsCas fun _ : Fin 2 => 0).Reachable
    (MinTsState.Covered tsCas) s ∧ s.returned = some (1 : Nat) ∧ s.Safe := by
  obtain ⟨s, run, returned⟩ := (minTsMachine tsCas fun _ : Fin 2 => 0).exists_along
    (MinTsState.Quiet tsCas) ⟨⟨1, fun _ => (0 : UInt64).toNat⟩, fun _ => ⊤, (0 : Nat), fun _ => .idle, none, none⟩
    [.getNextTs 1, .addTs 1, .getNextTs 0, .addTs 0, .scan, .next, .next, .next, .next, .next, .next]
    (fun s => s.returned) (some (1 : Nat)) (by decide)
  have reached : (minTsMachine tsCas fun _ : Fin 2 => 0).Reachable (MinTsState.Covered tsCas) s :=
    ⟨_, _, rfl, run.weaken fun _ _ => MinTsState.Quiet.covered⟩
  exact ⟨s, reached, returned, min_ts_safe (fun batch => absurd batch (by decide)) reached⟩

/-- Thread 1 has drawn the timestamp 1 and not published it, and thread 0 returns 2. -/
theorem min_ts_unpublished : ∃ s, (minTsMachine tsCas fun _ : Fin 2 => 0).Reachable Free s ∧
    s.returned = some (2 : Nat) ∧ s.pc 1 = .drawn 1 ∧ ¬ s.Safe := by
  obtain ⟨s, run, view⟩ := (minTsMachine tsCas fun _ : Fin 2 => 0).exists_along
    Free ⟨⟨1, fun _ => (0 : UInt64).toNat⟩, fun _ => ⊤, (0 : Nat), fun _ => .idle, none, none⟩
    [.getNextTs 1, .getNextTs 0, .addTs 0, .scan, .next, .next, .next, .next, .next]
    (fun s => (s.returned, s.pc 1)) (some (2 : Nat), .drawn 1) (by decide)
  obtain ⟨returned, drawn⟩ := Prod.mk.inj view
  refine ⟨s, ⟨_, _, rfl, run⟩, returned, drawn, fun safe => ?_⟩
  exact absurd (safe _ returned 1 1 (.inl drawn)) (by decide)

/-- Thread 1 publishes 3 between the two loads of its entry, and thread 0 returns 3 although its
own transaction has the timestamp 2. -/
theorem min_ts_reloaded : ∃ s, (minTsMachine tsCas fun _ : Fin 2 => 0).Reachable Free s ∧
    s.returned = some (3 : Nat) ∧ s.pc 0 = .running 2 ∧ ¬ s.Safe := by
  obtain ⟨s, run, view⟩ := (minTsMachine tsCas fun _ : Fin 2 => 0).exists_along
    Free ⟨⟨1, fun _ => (0 : UInt64).toNat⟩, fun _ => ⊤, (0 : Nat), fun _ => .idle, none, none⟩
    [.getNextTs 1, .addTs 1, .getNextTs 0, .addTs 0, .scan, .next, .next, .next, .finish 1,
      .getNextTs 1, .addTs 1, .next, .next, .next]
    (fun s => (s.returned, s.pc 0)) (some (3 : Nat), .running 2) (by decide)
  obtain ⟨returned, own⟩ := Prod.mk.inj view
  refine ⟨s, ⟨_, _, rfl, run⟩, returned, own, fun safe => ?_⟩
  exact absurd (safe _ returned 0 2 (.inr own)) (by decide)

end DBx1000
