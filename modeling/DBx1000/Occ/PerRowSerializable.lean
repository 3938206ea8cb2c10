import DBx1000.Occ.PerRow
import Mathlib.Data.List.Nodup

/-!
# Per-row validation is serializable by end timestamps

A transaction draws `end_ts` while it holds the latches of all its rows. A row it has
validated still has the data that it copied: whoever replaces the data has an end timestamp
above the start timestamp of everyone who copied them.

## Main result

`per_row_serializable`: committed transactions read what those with smaller end timestamps leave,
rows are changed by these only, no assertion fails, and a transaction ends without a latch.

## Proof strategy

`PerRowInv` has what a thread knows at each point. Of a step of another thread only three things
matter: which latches it moves, which row it writes under its own latch, and which end timestamp
it draws.
-/

namespace DBx1000.Occ

open Transition SerialOrder

variable {ρ V τ : Type*}

namespace PerRowPc

/-- The accesses of a transaction that may still commit. -/
def accesses : PerRowPc ρ V → List (Access ρ V)
  | .running accesses => accesses
  | .latch held rest => held ++ rest
  | .validate held a rest => held ++ a :: rest
  | _ => []

/-- The rows whose latches the transaction holds. -/
def held : PerRowPc ρ V → List ρ
  | .latch held _ => held.map (·.origRow)
  | .validate held a _ => (held ++ [a]).map (·.origRow)
  | .cleanup _ accesses lockCnt _ => (accesses.take lockCnt).map (·.origRow)
  | .release rest => rest.map (·.origRow)
  | _ => []

/-- The writes of a committed transaction that are still to be done. -/
def owed : PerRowPc ρ V → List (Access ρ V)
  | .cleanup rc _ _ rest => rest.filter fun a => returnType rc a.type = .WR
  | _ => []

end PerRowPc

variable [DecidableEq ρ] {init : ρ → V} {cfg : TsConfig} {s s' : PerRowState ρ V τ} {t : τ}
  {p : PerRowPc ρ V} {a : Access ρ V}

/-! ### The invariant -/

/-- The row has not changed since the start of the transaction. -/
def Validated (s : PerRowState ρ V τ) (t : τ) (a : Access ρ V) : Prop :=
  (s.row a.origRow).wts ≤ s.startTs t

/-- A write that is to be done: the log already has it. -/
structure Owed (cfg : TsConfig) (init : ρ → V) (s : PerRowState ρ V τ) (t : τ) (p : PerRowPc ρ V)
    (a : Access ρ V) : Prop where
  held : a.origRow ∈ p.held
  newer : (s.row a.origRow).wts < s.endTs t
  drawn : s.endTs t < s.clock.horizon cfg
  logged : after init s.log a.origRow = a.data

/-- What a thread knows at each point of a transaction. -/
def PerRowSound (cfg : TsConfig) (init : ρ → V) (s : PerRowState ρ V τ) (t : τ) :
    PerRowPc ρ V → Prop
  | .idle => True
  | .running accesses =>
    s.startTs t < s.clock.horizon cfg ∧ (accesses.map (·.origRow)).Nodup
  | .latch held rest =>
    s.startTs t < s.clock.horizon cfg ∧ ((held ++ rest).map (·.origRow)).Nodup ∧
      ∀ a ∈ held, Validated s t a
  | .validate held a rest =>
    s.startTs t < s.clock.horizon cfg ∧ ((held ++ a :: rest).map (·.origRow)).Nodup ∧
      ∀ a ∈ held, Validated s t a
  | .cleanup rc accesses lockCnt rest =>
    (rc ≠ .Abort → entry (s.endTs t) accesses ∈ s.log) ∧ (∀ a ∈ rest, a ∈ accesses) ∧
      (accesses.map (·.origRow)).Nodup ∧ (rest.map (·.origRow)).Nodup ∧
        ∀ a ∈ (PerRowPc.cleanup rc accesses lockCnt rest).owed,
          Owed cfg init s t (.cleanup rc accesses lockCnt rest) a
  | .release rest => (rest.map (·.origRow)).Nodup

structure PerRowInv (cfg : TsConfig) (init : ρ → V) (s : PerRowState ρ V τ) : Prop where
  clock : s.clock.Sound cfg
  written : ∀ x, (s.row x).wts < s.clock.horizon cfg
  latches : ∀ x t, (s.row x).latch = some t ↔ x ∈ (s.pc t).held
  sound : ∀ t, PerRowSound cfg init s t (s.pc t)
  /-- A row that has not changed since a start has the data that the copy has. -/
  copies : ∀ t, ∀ a ∈ (s.pc t).accesses, Validated s t a → (s.row a.origRow).data = a.read
  /-- A write that a copy lacks has an end timestamp above the start of the reader. -/
  early : ∀ t u, ∀ a ∈ (s.pc t).accesses, ∀ b ∈ (s.pc u).owed, b.origRow = a.origRow →
    s.startTs t < s.endTs u
  /-- A row without a write to be done has the value that the log gives it. -/
  current : ∀ x, (∀ t, ∀ a ∈ (s.pc t).owed, a.origRow ≠ x) → after init s.log x = (s.row x).data
  drawn : ∀ e ∈ s.log, e.time < s.clock.horizon cfg
  increasing : s.log.Pairwise (·.time < ·.time)
  replays : Replays init s.log
  passes : s.failed = false

/-- What a thread knows depends on its own timestamps and on the rows that it holds. -/
theorem PerRowSound.frame (h : PerRowSound cfg init s t p)
    (start : s'.startTs t = s.startTs t) (endTs : s'.endTs t = s.endTs t)
    (horizon : s.clock.horizon cfg ≤ s'.clock.horizon cfg)
    (rows : ∀ x ∈ p.held, (s'.row x).wts = (s.row x).wts) (grows : ∀ e ∈ s.log, e ∈ s'.log)
    (logs : ∀ x ∈ p.held, after init s'.log x = after init s.log x) :
    PerRowSound cfg init s' t p := by
  have keep {a : Access ρ V} (h : Validated s t a) (held : a.origRow ∈ p.held) :
      Validated s' t a := by
    unfold Validated
    rw [rows _ held, start]
    exact h
  cases p with
  | idle => trivial
  | running accesses =>
    obtain ⟨begun, nodup⟩ := h
    exact ⟨by omega, nodup⟩
  | latch held rest =>
    obtain ⟨begun, nodup, checked⟩ := h
    refine ⟨by omega, nodup, fun a ha => ?_⟩
    exact keep (checked a ha) (List.mem_map_of_mem ha)
  | validate held b rest =>
    obtain ⟨begun, nodup, checked⟩ := h
    refine ⟨by omega, nodup, fun a ha => ?_⟩
    exact keep (checked a ha) (List.mem_map_of_mem (List.mem_append_left _ ha))
  | cleanup rc accesses lockCnt rest =>
    obtain ⟨mem, sub, nodup, todo, owed⟩ := h
    refine ⟨fun ok => ?_, sub, nodup, todo, fun a ha => ?_⟩
    · rw [endTs]
      exact grows _ (mem ok)
    -- a write that is owed is to a row that the thread holds
    obtain ⟨held, newer, drawn, logged⟩ := owed a ha
    constructor
    · exact held
    · rw [rows _ held, endTs]
      exact newer
    · omega
    · rw [logs _ held]
      exact logged
  | release rest => exact h

theorem PerRowSound.begun (h : PerRowSound cfg init s t p) (ha : a ∈ p.accesses) :
    s.startTs t < s.clock.horizon cfg := by
  cases p with
  | running accesses => exact h.1
  | latch held rest => exact h.1
  | validate held b rest => exact h.1
  | idle => cases ha
  | cleanup rc accesses lockCnt rest => cases ha
  | release rest => cases ha

theorem PerRowSound.owed (h : PerRowSound cfg init s t p) (ha : a ∈ p.owed) :
    Owed cfg init s t p a := by
  cases p with
  | cleanup rc accesses lockCnt rest => exact h.2.2.2.2 a ha
  | idle => cases ha
  | running accesses => cases ha
  | latch held rest => cases ha
  | validate held b rest => cases ha
  | release rest => cases ha

namespace PerRowInv

/-- Only one transaction holds a latch. -/
theorem held_unique (inv : PerRowInv cfg init s) {x : ρ} {u : τ} (ht : x ∈ (s.pc t).held)
    (hu : x ∈ (s.pc u).held) : u = t := by
  have first := (inv.latches x t).mpr ht
  have second := (inv.latches x u).mpr hu
  rw [first] at second
  exact (Option.some.inj second).symm

theorem not_owed_of_free (inv : PerRowInv cfg init s) {x : ρ} (free : (s.row x).latch = none)
    {u : τ} {b : Access ρ V} (hb : b ∈ (s.pc u).owed) : b.origRow ≠ x := by
  intro same
  have held := ((inv.sound u).owed hb).held
  rw [same, ← inv.latches, free] at held
  cases held

/-- Nobody owes a write to a row that a validating transaction holds. -/
theorem not_owed_of_held (inv : PerRowInv cfg init s) {x : ρ} (held : x ∈ (s.pc t).held)
    (none : (s.pc t).owed = []) {u : τ} {b : Access ρ V} (hb : b ∈ (s.pc u).owed) :
    b.origRow ≠ x := by
  intro same
  have := ((inv.sound u).owed hb).held
  rw [same] at this
  rw [inv.held_unique held this, none] at hb
  cases hb

variable [DecidableEq τ]

/-! ### Steps of one thread alone -/

/-- A move of one thread that keeps its writes and may change latches; it may copy a row
whose latch is free. -/
theorem move (inv : PerRowInv cfg init s) (row : ρ → RowOcc V τ)
    (data : ∀ x, (row x).data = (s.row x).data) (wts : ∀ x, (row x).wts = (s.row x).wts)
    (latches : ∀ x u, (row x).latch = some u ↔ x ∈ (Function.update s.pc t p u).held)
    (owed : ∀ b, b ∈ p.owed ↔ b ∈ (s.pc t).owed)
    (accesses : ∀ a ∈ p.accesses,
      (∃ b ∈ (s.pc t).accesses, b.origRow = a.origRow ∧ b.read = a.read) ∨
        (s.row a.origRow).latch = none ∧ (s.row a.origRow).data = a.read)
    (sound : PerRowSound cfg init s t p) :
    PerRowInv cfg init { s with row := row, pc := Function.update s.pc t p } := by
  have owed' (u : τ) (b : Access ρ V) :
      b ∈ (Function.update s.pc t p u).owed ↔ b ∈ (s.pc u).owed := by
    rw [Function.update_apply]
    split
    · next e => rw [e, owed]
    · exact Iff.rfl
  have accesses' (u : τ) (a : Access ρ V) (ha : a ∈ (Function.update s.pc t p u).accesses) :
      (∃ b ∈ (s.pc u).accesses, b.origRow = a.origRow ∧ b.read = a.read) ∨
        (s.row a.origRow).latch = none ∧ (s.row a.origRow).data = a.read := by
    rw [Function.update_apply] at ha
    split at ha
    · next e =>
      rw [e]
      exact accesses a ha
    · exact .inl ⟨a, ha, rfl, rfl⟩
  constructor
  case clock => exact inv.clock
  case written =>
    intro x
    change (row x).wts < _
    rw [wts]
    exact inv.written x
  case latches => exact latches
  case sound =>
    intro u
    have alone (q : PerRowPc ρ V) (h : PerRowSound cfg init s u q) :
        PerRowSound cfg init { s with row := row, pc := Function.update s.pc t p } u q :=
      h.frame rfl rfl (Nat.le_refl _) (fun x _ => wts x) (fun _ he => he) fun _ _ => rfl
    change PerRowSound cfg init _ u (Function.update s.pc t p u)
    rw [Function.update_apply]
    split
    · next e =>
      rw [e] at alone ⊢
      exact alone p sound
    · exact alone _ (inv.sound u)
  case copies =>
    intro u a ha valid
    change (row a.origRow).data = a.read
    rw [data]
    -- a copy that was there before, or one made in this step from a row that is free
    rcases accesses' u a ha with ⟨b, hb, same, read⟩ | ⟨-, fresh⟩
    · have := inv.copies u b hb
      rw [Validated, same, read] at this
      refine this ?_
      rw [← wts]
      exact valid
    · exact fresh
  case early =>
    intro u w a ha b hb same
    have hb := (owed' w b).mp hb
    rcases accesses' u a ha with ⟨a', ha', row, -⟩ | ⟨free, -⟩
    · exact inv.early u w a' ha' b hb (same.trans row.symm)
    · -- to a free row nobody owes a write
      exact absurd same (inv.not_owed_of_free free hb)
  case current =>
    intro x none
    change _ = (row x).data
    rw [data]
    exact inv.current x fun u b hb => none u b ((owed' u b).mpr hb)
  case drawn => exact inv.drawn
  case increasing => exact inv.increasing
  case replays => exact inv.replays
  case passes => exact inv.passes

/-- A move of one thread that keeps its latches. -/
theorem goto (inv : PerRowInv cfg init s) (held : ∀ x, x ∈ p.held ↔ x ∈ (s.pc t).held)
    (owed : ∀ b, b ∈ p.owed ↔ b ∈ (s.pc t).owed)
    (accesses : ∀ a ∈ p.accesses,
      (∃ b ∈ (s.pc t).accesses, b.origRow = a.origRow ∧ b.read = a.read) ∨
        (s.row a.origRow).latch = none ∧ (s.row a.origRow).data = a.read)
    (sound : PerRowSound cfg init s t p) : PerRowInv cfg init (s.goto t p) := by
  refine inv.move s.row (fun _ => rfl) (fun _ => rfl) (fun x u => ?_) owed accesses sound
  rw [Function.update_apply, inv.latches]
  split
  · next e => rw [e, held]
  · exact Iff.rfl

/-- A move of one thread that takes or releases the latch of a row no other thread holds. -/
theorem setLatch (inv : PerRowInv cfg init s) {x : ρ} {l : Option τ}
    (others : ∀ u, u ≠ t → x ∉ (s.pc u).held) (mine : l = none ∨ l = some t)
    (held : ∀ y, y ∈ p.held ↔ if y = x then l = some t else y ∈ (s.pc t).held)
    (owed : ∀ b, b ∈ p.owed ↔ b ∈ (s.pc t).owed)
    (accesses : ∀ a ∈ p.accesses, a ∈ (s.pc t).accesses)
    (sound : PerRowSound cfg init s t p) : PerRowInv cfg init ((s.setLatch x l).goto t p) := by
  refine inv.move _ (fun y => s.setLatch_data x y l) (fun y => s.setLatch_wts x y l)
    (fun y u => ?_) owed (fun a ha => .inl ⟨a, accesses a ha, rfl, rfl⟩) sound
  rw [PerRowState.setLatch_latch, Function.update_apply]
  split
  · next e =>
    split
    · next same => rw [held, if_pos e, same]
    · next ne =>
      rw [e]
      refine iff_of_false (fun is => ?_) (others u ne)
      rcases mine with mine | mine
      · rw [mine] at is
        cases is
      · rw [mine] at is
        exact ne (Option.some.inj is).symm
  · next ne =>
    rw [inv.latches]
    split
    · next same => rw [held, if_neg ne, same]
    · exact Iff.rfl

/-- An abort keeps the latches and writes nothing. -/
theorem abort (inv : PerRowInv cfg init s) {accesses : List (Access ρ V)} {lockCnt : Nat}
    (nodup : (accesses.map (·.origRow)).Nodup)
    (held : (s.pc t).held = (accesses.take lockCnt).map (·.origRow)) (owed : (s.pc t).owed = []) :
    PerRowInv cfg init (s.goto t (.startCleanup .Abort accesses lockCnt)) := by
  have none : (PerRowPc.startCleanup .Abort accesses lockCnt).owed = [] := by
    refine List.filter_eq_nil_iff.mpr fun a _ => ?_
    simp [returnType_eq_WR]
  refine inv.goto (fun x => by rw [held]; rfl) (fun b => by rw [none, owed])
    (fun a ha => by cases ha)
    ⟨fun ok => absurd rfl ok, fun a => List.mem_reverse.mp, nodup, ?_, fun a ha => ?_⟩
  · rw [List.map_reverse]
    exact List.nodup_reverse.mpr nodup
  · change a ∈ (PerRowPc.startCleanup .Abort accesses lockCnt).owed at ha
    rw [none] at ha
    cases ha

theorem begin (inv : PerRowInv cfg init s) (pc : s.pc t = .idle) {p : PerRowState ρ V τ}
    (e : p = { s.goto t (.running []) with
      clock := (s.clock.getNextTs cfg t).2
      startTs := Function.update s.startTs t (s.clock.getNextTs cfg t).1 }) :
    PerRowInv cfg init p := by
  subst e
  have horizon : s.clock.horizon cfg ≤ (s.clock.getNextTs cfg t).2.horizon cfg :=
    Clock.horizon_getNextTs
  have accesses (u : τ) (a : Access ρ V)
      (ha : a ∈ (Function.update s.pc t (.running []) u).accesses) :
      u ≠ t ∧ a ∈ (s.pc u).accesses := by
    rw [Function.update_apply] at ha
    split at ha
    · cases ha
    · next ne => exact ⟨ne, ha⟩
  have owed (u : τ) (b : Access ρ V) :
      b ∈ (Function.update s.pc t (.running []) u).owed ↔ b ∈ (s.pc u).owed := by
    rw [Function.update_apply]
    split
    · next e =>
      rw [e, pc]
      exact Iff.rfl
    · exact Iff.rfl
  constructor
  case clock => exact inv.clock.getNextTs
  case written => exact fun x => Nat.lt_of_lt_of_le (inv.written x) horizon
  case latches =>
    intro x u
    change (s.row x).latch = some u ↔ x ∈ (Function.update s.pc t (.running []) u).held
    rw [Function.update_apply, inv.latches]
    split
    · next e =>
      rw [e, pc]
      exact Iff.rfl
    · exact Iff.rfl
  case sound =>
    intro u
    change PerRowSound cfg init _ u (Function.update s.pc t (.running []) u)
    rw [Function.update_apply]
    split
    · next e =>
      refine ⟨?_, List.nodup_nil⟩
      change Function.update s.startTs t (s.clock.getNextTs cfg t).1 u < _
      rw [e, Function.update_self]
      -- the timestamp that has been drawn is below those to come
      exact inv.clock.getNextTs_lt
    · next ne =>
      exact (inv.sound u).frame (Function.update_of_ne ne ..) rfl horizon (fun _ _ => rfl)
        (fun _ he => he) fun _ _ => rfl
  case copies =>
    intro u a ha valid
    obtain ⟨ne, ha⟩ := accesses u a ha
    refine inv.copies u a ha ?_
    change (s.row a.origRow).wts ≤ Function.update s.startTs t _ u at valid
    rw [Function.update_of_ne ne] at valid
    exact valid
  case early =>
    intro u w a ha b hb same
    obtain ⟨ne, ha⟩ := accesses u a ha
    change Function.update s.startTs t _ u < s.endTs w
    rw [Function.update_of_ne ne]
    exact inv.early u w a ha b ((owed w b).mp hb) same
  case current =>
    intro x none
    exact inv.current x fun u b hb => none u b ((owed u b).mpr hb)
  case drawn => exact fun e he => Nat.lt_of_lt_of_le (inv.drawn e he) horizon
  case increasing => exact inv.increasing
  case replays => exact inv.replays
  case passes => exact inv.passes

/-! ### The commit and the writes -/

omit [DecidableEq τ] in
/-- What a validating transaction knows when its loop over the accesses is done. -/
theorem validated (inv : PerRowInv cfg init s) {held : List (Access ρ V)}
    (pc : s.pc t = .latch held []) :
    (held.map (·.origRow)).Nodup ∧ ∀ a ∈ held, Validated s t a := by
  have := inv.sound t
  rw [pc] at this
  obtain ⟨-, nodup, checked⟩ := this
  rw [List.append_nil] at nodup
  exact ⟨nodup, checked⟩

omit [DecidableEq τ] in
/-- At the moment at which it draws `end_ts` a transaction has read what the log leaves. -/
theorem reads_at_commit (inv : PerRowInv cfg init s) {held : List (Access ρ V)}
    (pc : s.pc t = .latch held []) (ha : a ∈ held) : after init s.log a.origRow = a.read := by
  have mine : a.origRow ∈ (s.pc t).held := by
    rw [pc]
    exact List.mem_map_of_mem ha
  have none : (s.pc t).owed = [] := by
    rw [pc]
    rfl
  rw [inv.current _ fun u b hb => inv.not_owed_of_held mine none hb]
  refine inv.copies t a ?_ ((inv.validated pc).2 a ha)
  rw [pc]
  exact List.mem_append_left _ ha

omit [DecidableEq ρ] [DecidableEq τ] in
theorem entry_writesTo {time : Nat} {held : List (Access ρ V)} {x : ρ} :
    (entry time held).writesTo x ↔ ∃ a ∈ held, a.type = .WR ∧ a.origRow = x := by
  simp [Entry.writesTo, entry, and_assoc]

omit [DecidableEq ρ] [DecidableEq τ] in
theorem mem_owed_commit {held : List (Access ρ V)} :
    a ∈ (PerRowPc.startCleanup .RCOK held held.length).owed ↔ a ∈ held ∧ a.type = .WR := by
  simp [PerRowPc.startCleanup, PerRowPc.owed, returnType_eq_WR]

theorem commit (inv : PerRowInv cfg init s) {held : List (Access ρ V)}
    (pc : s.pc t = .latch held []) : PerRowInv cfg init (s.commit cfg t held) := by
  obtain ⟨nodup, checked⟩ := inv.validated pc
  have reads (a) (ha : a ∈ held) := inv.reads_at_commit pc ha
  have time : (s.clock.getTs cfg).1 = s.clock.horizon cfg := Clock.getTs_time
  have later : s.clock.horizon cfg < (s.clock.getTs cfg).2.horizon cfg := Clock.horizon_getTs
  have mine (x : ρ) : x ∈ (s.pc t).held ↔ x ∈ held.map (·.origRow) := by
    rw [pc]
    exact Iff.rfl
  have keep (x : ρ) (free : ∀ a ∈ held, a.type = .WR → a.origRow ≠ x) :
      after init (s.log ++ [entry (s.clock.getTs cfg).1 held]) x = after init s.log x := by
    rw [after_append]
    refine apply_of_not_writesTo fun writes => ?_
    obtain ⟨a, ha, type, same⟩ := entry_writesTo.mp writes
    exact free a ha type same
  have endTs (u : τ) (ne : u ≠ t) : (s.commit cfg t held).endTs u = s.endTs u :=
    Function.update_of_ne ne ..
  have endTs_self : (s.commit cfg t held).endTs t = s.clock.horizon cfg := by
    rw [← time]
    exact Function.update_self ..
  have accesses (u : τ) (a) (ha : a ∈ ((s.commit cfg t held).pc u).accesses) :
      u ≠ t ∧ a ∈ (s.pc u).accesses := by
    change a ∈ (Function.update s.pc t _ u).accesses at ha
    rw [Function.update_apply] at ha
    split at ha
    · cases ha
    · next ne => exact ⟨ne, ha⟩
  have others (u : τ) (ne : u ≠ t) : (s.commit cfg t held).pc u = s.pc u :=
    Function.update_of_ne ne ..
  have self : (s.commit cfg t held).pc t = .startCleanup .RCOK held held.length :=
    Function.update_self ..
  constructor
  case clock => exact inv.clock.getTs
  case written => exact fun x => Nat.lt_trans (inv.written x) later
  case latches =>
    intro x u
    rw [show (s.commit cfg t held).row = s.row from rfl, inv.latches]
    by_cases same : u = t
    · rw [same, self, mine]
      change _ ↔ x ∈ (held.take held.length).map _
      rw [List.take_length]
    · rw [others u same]
  case sound =>
    intro u
    by_cases same : u = t
    · rw [same, self]
      refine ⟨fun _ => ?_, fun a => List.mem_reverse.mp, nodup, ?_, fun a ha => ?_⟩
      · -- the entry is in the log, and its writes are owed
        rw [endTs_self, ← time]
        exact List.mem_append_right _ (List.mem_singleton_self _)
      · rw [List.map_reverse]
        exact List.nodup_reverse.mpr nodup
      · obtain ⟨ha, type⟩ := mem_owed_commit.mp ha
        constructor
        · change a.origRow ∈ (held.take held.length).map _
          rw [List.take_length]
          exact List.mem_map_of_mem ha
        · rw [endTs_self]
          exact inv.written _
        · rw [endTs_self]
          exact later
        · rw [show (s.commit cfg t held).log = s.log ++ [_] from rfl, after_append]
          -- the log gives the row what the transaction writes, for no row is written twice
          refine apply_of_mem (List.mem_map.mpr ⟨a, ?_, rfl⟩) ?_
          · exact List.mem_filter.mpr ⟨ha, by simpa using type⟩
          · rw [entry, List.map_map]
            exact nodup.sublist (List.filter_sublist.map _)
    · rw [others u same]
      refine (inv.sound u).frame rfl (endTs u same) (Nat.le_of_lt later) (fun _ _ => rfl)
        (fun _ he => List.mem_append_left _ he) ?_
      intro x hx
      refine keep x fun a ha _ row => same (inv.held_unique ?_ hx)
      rw [mine, ← row]
      exact List.mem_map_of_mem ha
  case copies =>
    intro u a ha valid
    exact inv.copies u a (accesses u a ha).2 valid
  case early =>
    intro u w a ha b hb row
    obtain ⟨-, ha⟩ := accesses u a ha
    change s.startTs u < _
    by_cases same : w = t
    · rw [same, endTs_self]
      -- a transaction that runs has started before the end timestamp was drawn
      exact (inv.sound u).begun ha
    · rw [endTs w same]
      rw [others w same] at hb
      exact inv.early u w a ha b hb row
  case current =>
    intro x none
    refine (keep x fun a ha type row => ?_).trans (inv.current x fun u b hb => ?_)
    · -- a row that the entry writes is owed by `t`
      refine none t a ?_ row
      rw [self]
      exact mem_owed_commit.mpr ⟨ha, type⟩
    · by_cases same : u = t
      · rw [same, pc] at hb
        cases hb
      · refine none u b ?_
        rw [others u same]
        exact hb
  case drawn =>
    intro e he
    rcases List.mem_append.mp he with he | he
    · exact Nat.lt_trans (inv.drawn e he) later
    · rw [List.mem_singleton.mp he]
      change (s.clock.getTs cfg).1 < _
      rw [time]
      exact later
  case increasing =>
    refine List.pairwise_append.mpr ⟨inv.increasing, List.pairwise_singleton .., ?_⟩
    intro e he f hf
    rw [List.mem_singleton.mp hf]
    change e.time < (s.clock.getTs cfg).1
    rw [time]
    exact inv.drawn e he
  case replays =>
    refine replays_append.mpr ⟨inv.replays, fun r hr => ?_, trivial⟩
    obtain ⟨a, ha, rfl⟩ := List.mem_map.mp hr
    exact reads a ha
  case passes => exact inv.passes

omit [DecidableEq τ] in
/-- What a committed transaction still has to do, when it is to write next. -/
theorem owed_write (inv : PerRowInv cfg init s) {rc : RC} {accesses rest : List (Access ρ V)}
    {n : Nat} (pc : s.pc t = .cleanup rc accesses n (a :: rest)) (write : returnType rc a.type = .WR) :
    Owed cfg init s t (.cleanup rc accesses n (a :: rest)) a ∧
      ∀ b ∈ (PerRowPc.cleanup rc accesses n rest).owed, b.origRow ≠ a.origRow ∧
        Owed cfg init s t (.cleanup rc accesses n (a :: rest)) b := by
  have := inv.sound t
  rw [pc] at this
  obtain ⟨-, -, -, nodup, owed⟩ := this
  rw [List.map_cons, List.nodup_cons] at nodup
  refine ⟨owed a (List.mem_filter.mpr ⟨List.mem_cons_self, by simpa using write⟩), fun b hb => ?_⟩
  obtain ⟨hb, type⟩ := List.mem_filter.mp hb
  constructor
  · intro same
    exact nodup.1 (same ▸ List.mem_map_of_mem hb)
  · exact owed b (List.mem_filter.mpr ⟨List.mem_cons_of_mem _ hb, type⟩)

theorem write (inv : PerRowInv cfg init s) {rc : RC} {accesses rest : List (Access ρ V)}
    {n : Nat} (pc : s.pc t = .cleanup rc accesses n (a :: rest)) (write : returnType rc a.type = .WR) :
    PerRowInv cfg init ((s.write t a).goto t (.cleanup rc accesses n rest)) := by
  obtain ⟨own, later⟩ := inv.owed_write pc write
  have local_ := inv.sound t
  rw [pc] at local_
  have mine : a.origRow ∈ (s.pc t).held := by
    rw [pc]
    exact own.held
  have others (u : τ) (ne : u ≠ t) :
      ((s.write t a).goto t (.cleanup rc accesses n rest)).pc u = s.pc u :=
    Function.update_of_ne ne ..
  have self : ((s.write t a).goto t (.cleanup rc accesses n rest)).pc t =
      .cleanup rc accesses n rest := Function.update_self ..
  have held (u : τ) : (((s.write t a).goto t (.cleanup rc accesses n rest)).pc u).held =
      (s.pc u).held := by
    by_cases same : u = t
    · rw [same, self, pc]
      rfl
    · rw [others u same]
  have owed (u : τ) (b) (hb : b ∈ (((s.write t a).goto t (.cleanup rc accesses n rest)).pc u).owed) :
      b ∈ (s.pc u).owed := by
    by_cases same : u = t
    · rw [same, self] at hb
      rw [same, pc]
      obtain ⟨hb, type⟩ := List.mem_filter.mp hb
      exact List.mem_filter.mpr ⟨List.mem_cons_of_mem _ hb, type⟩
    · rw [others u same] at hb
      exact hb
  have reads (u : τ) (b)
      (hb : b ∈ (((s.write t a).goto t (.cleanup rc accesses n rest)).pc u).accesses) :
      b ∈ (s.pc u).accesses := by
    by_cases same : u = t
    · rw [same, self] at hb
      cases hb
    · rw [others u same] at hb
      exact hb
  have row : (s.write t a).row a.origRow = ⟨a.data, s.endTs t, (s.row a.origRow).latch⟩ :=
    Function.update_self ..
  have same_row (x : ρ) (ne : x ≠ a.origRow) : (s.write t a).row x = s.row x :=
    Function.update_of_ne ne ..
  generalize e : (s.write t a).goto t (.cleanup rc accesses n rest) = w at *
  have rows : w.row = (s.write t a).row := by
    rw [← e]
    rfl
  have keeps : w.clock = s.clock ∧ w.startTs = s.startTs ∧ w.endTs = s.endTs ∧ w.log = s.log := by
    rw [← e]
    exact ⟨rfl, rfl, rfl, rfl⟩
  obtain ⟨clock, startTs, endTs, log⟩ := keeps
  constructor
  case clock =>
    rw [clock]
    exact inv.clock
  case written =>
    intro x
    rw [clock, rows]
    by_cases same : x = a.origRow
    · rw [same, row]
      exact own.drawn
    · rw [same_row x same]
      exact inv.written x
  case latches =>
    intro x u
    rw [held, rows, ← inv.latches]
    by_cases same : x = a.origRow
    · rw [same, row]
    · rw [same_row x same]
  case sound =>
    intro u
    by_cases same : u = t
    · rw [same, self]
      obtain ⟨mem, sub, nodup, todo, -⟩ := local_
      refine ⟨fun ok => ?_, fun b hb => sub b (List.mem_cons_of_mem _ hb), nodup,
        (List.nodup_cons.mp todo).2, fun b hb => ?_⟩
      · rw [log, endTs]
        exact mem ok
      obtain ⟨ne, owes⟩ := later b hb
      constructor
      · exact owes.held
      · rw [rows, same_row _ ne, endTs]
        exact owes.newer
      · rw [endTs, clock]
        exact owes.drawn
      · rw [log]
        exact owes.logged
    · rw [others u same]
      refine (inv.sound u).frame (by rw [startTs]) (by rw [endTs]) (by rw [clock]) ?_
        (fun e he => by rw [log]; exact he) (fun _ _ => by rw [log])
      intro x hx
      rw [rows, same_row]
      intro is
      rw [is] at hx
      -- no other thread holds the row that is written
      exact same (inv.held_unique mine hx)
  case copies =>
    intro u b hb valid
    by_cases same : b.origRow = a.origRow
    · -- the copy is older than the write
      have lt : s.startTs u < s.endTs t := by
        refine inv.early u t b (reads u b hb) a ?_ same.symm
        rw [pc]
        exact List.mem_filter.mpr ⟨List.mem_cons_self, by simpa using write⟩
      rw [Validated, rows, same, row, startTs] at valid
      exact absurd lt (Nat.not_lt.mpr valid)
    · rw [Validated, rows, same_row _ same, startTs] at valid
      rw [rows, same_row _ same]
      exact inv.copies u b (reads u b hb) valid
  case early =>
    intro u v b hb c hc same
    rw [startTs, endTs]
    exact inv.early u v b (reads u b hb) c (owed v c hc) same
  case current =>
    intro x none
    rw [log, rows]
    by_cases same : x = a.origRow
    · rw [same, row]
      -- what is owed is what the log gives
      exact own.logged
    · rw [same_row x same]
      refine inv.current x fun u b hb is => ?_
      by_cases who : u = t
      · rw [who, pc] at hb
        obtain ⟨hb, type⟩ := List.mem_filter.mp hb
        rcases List.mem_cons.mp hb with first | hb
        · exact same (is.symm.trans (congrArg Access.origRow first))
        · refine none t b ?_ is
          rw [self]
          exact List.mem_filter.mpr ⟨hb, type⟩
      · refine none u b ?_ is
        rw [others u who]
        exact hb
  case drawn =>
    rw [log, clock]
    exact inv.drawn
  case increasing =>
    rw [log]
    exact inv.increasing
  case replays =>
    rw [log]
    exact inv.replays
  case passes =>
    rw [← e]
    change (s.failed || !(s.row a.origRow).writeAssert true (s.endTs t)) = false
    -- the assertion of `Row_occ::write`: the row is older than the end timestamp
    have ok : (s.row a.origRow).writeAssert true (s.endTs t) = true := by
      simpa [RowOcc.writeAssert] using own.newer
    rw [inv.passes, ok]
    rfl

/-! ### Every step -/

theorem next (inv : PerRowInv cfg init s) (h : perRowNext cfg s t = some s') :
    PerRowInv cfg init s' := by
  have sound := inv.sound t
  cases pc : s.pc t with
  | idle =>
    simp only [perRowNext, pc] at h
    cases h
  | running accesses =>
    simp only [perRowNext, pc] at h
    cases h
  | latch held rest =>
    rw [pc] at sound
    obtain ⟨begun, nodup, checked⟩ := sound
    cases rest with
    | nil =>
      simp only [perRowNext, pc, Option.some.injEq] at h
      rw [← h]
      exact inv.commit pc
    | cons a rest =>
      simp only [perRowNext, pc] at h
      obtain ⟨free, h⟩ := (Option.ite_none_right_eq_some).mp h
      rw [← Option.some.inj h]
      -- the latch was free, so no thread holds the row
      have unheld (u : τ) : a.origRow ∉ (s.pc u).held := by
        rw [← inv.latches, free]
        exact nofun
      refine inv.setLatch (fun u _ => unheld u) (.inr rfl) (fun y => ?_)
        (fun b => by rw [pc]; exact Iff.rfl) (fun b hb => by rw [pc]; exact hb)
        ⟨begun, nodup, checked⟩
      rw [pc]
      change y ∈ (held ++ [a]).map _ ↔ if y = a.origRow then _ else y ∈ held.map _
      rw [List.map_append, List.mem_append]
      split
      · next same => simp [same]
      · next ne => simp [ne]
  | validate held a rest =>
    rw [pc] at sound
    obtain ⟨begun, nodup, checked⟩ := sound
    simp only [perRowNext, pc] at h
    split at h
    · next ok =>
      rw [← Option.some.inj h]
      refine inv.goto (fun y => by rw [pc]; exact Iff.rfl) (fun b => by rw [pc]; exact Iff.rfl)
        (fun b hb => ?_) ⟨begun, ?_, fun b hb => ?_⟩
      · rw [pc]
        refine .inl ⟨b, ?_, rfl, rfl⟩
        simpa [PerRowPc.accesses] using hb
      · simpa using nodup
      · rcases List.mem_append.mp hb with hb | hb
        · exact checked b hb
        · rw [List.mem_singleton.mp hb]
          exact RowOcc.validate_iff.mp ok
    · rw [← Option.some.inj h]
      -- a failed validation gives up the latches taken so far
      refine inv.abort nodup ?_ (by rw [pc]; rfl)
      rw [pc]
      change (held ++ [a]).map _ = _
      rw [show held ++ a :: rest = (held ++ [a]) ++ rest by simp, List.take_left' (by simp)]
  | cleanup rc accesses n rest =>
    rw [pc] at sound
    obtain ⟨mem, sub, nodup, todo, owed⟩ := sound
    cases rest with
    | nil =>
      simp only [perRowNext, pc, Option.some.injEq] at h
      rw [← h]
      refine inv.goto (fun y => by rw [pc]; exact Iff.rfl) (fun b => by rw [pc]; exact Iff.rfl)
        (fun b hb => by cases hb) ?_
      exact nodup.sublist ((List.take_sublist n accesses).map _)
    | cons a rest =>
      simp only [perRowNext, pc, Option.some.injEq, PerRowState.returnRow] at h
      rw [← h]
      split
      · next write => exact inv.write pc write
      · next read =>
        -- a read owes nothing
        have same : (PerRowPc.cleanup rc accesses n (a :: rest)).owed =
            (PerRowPc.cleanup rc accesses n rest).owed := by
          simp only [PerRowPc.owed]
          rw [List.filter_cons_of_neg (by simpa using read)]
        refine inv.goto (fun y => by rw [pc]; exact Iff.rfl) (fun b => by rw [pc, same])
          (fun b hb => by cases hb)
          ⟨mem, fun b hb => sub b (List.mem_cons_of_mem _ hb), nodup, (List.nodup_cons.mp todo).2, ?_⟩
        intro b hb
        rw [← same] at hb
        obtain ⟨held, newer, drawn, logged⟩ := owed b hb
        exact ⟨held, newer, drawn, logged⟩
  | release rest =>
    rw [pc] at sound
    cases rest with
    | nil =>
      simp only [perRowNext, pc, Option.some.injEq] at h
      rw [← h]
      exact inv.goto (fun y => by rw [pc]; exact Iff.rfl) (fun b => by rw [pc]; exact Iff.rfl)
        (fun b hb => by cases hb) trivial
    | cons a rest =>
      simp only [perRowNext, pc, Option.some.injEq] at h
      rw [← h]
      have nodup := List.nodup_cons.mp sound
      have mine : a.origRow ∈ (s.pc t).held := by
        rw [pc]
        exact List.mem_cons_self
      -- only the holder gives up the latch
      refine inv.setLatch (fun u ne hu => ne (inv.held_unique mine hu)) (.inl rfl) (fun y => ?_)
        (fun b => by rw [pc]; exact Iff.rfl) (fun b hb => by cases hb) nodup.2
      rw [pc]
      change y ∈ rest.map _ ↔ if y = a.origRow then _ else y ∈ (a :: rest).map _
      split
      · next same =>
        rw [same]
        exact iff_of_false nodup.1 nofun
      · next ne =>
        rw [List.map_cons, List.mem_cons]
        exact ⟨.inr, fun h => h.resolve_left ne⟩

variable {currTs : τ → Nat} {names : RowNames ρ}

theorem step {l : PerRowLabel ρ V τ} (inv : PerRowInv cfg init s)
    (h : perRowStep cfg names s l = some s') : PerRowInv cfg init s' := by
  cases l with
  | begin t =>
    simp only [perRowStep] at h
    split at h
    · next pc =>
      rw [← Option.some.inj h]
      exact inv.begin pc rfl
    · cases h
  | getRow t row type =>
    have sound := inv.sound t
    simp only [perRowStep] at h
    split at h
    · next accesses pc =>
      rw [pc] at sound
      obtain ⟨begun, nodup⟩ := sound
      obtain ⟨⟨free, fresh⟩, h⟩ := (Option.ite_none_right_eq_some).mp h
      split at h
      · rw [← Option.some.inj h]
        exact inv.abort nodup (by rw [pc]; rfl) (by rw [pc]; rfl)
      · next data access =>
        rw [← Option.some.inj h]
        obtain ⟨-, data⟩ := RowOcc.access_eq_some.mp access
        -- the copy is that of the row, whose latch is free
        refine inv.goto (fun y => by rw [pc]; exact Iff.rfl) (fun b => by rw [pc]; exact Iff.rfl)
          (fun b hb => ?_) ⟨begun, ?_⟩
        · rcases List.mem_append.mp hb with hb | hb
          · rw [pc]
            exact .inl ⟨b, hb, rfl, rfl⟩
          · rw [List.mem_singleton.mp hb]
            exact .inr ⟨free, data⟩
        · rw [List.map_append]
          refine List.nodup_append.mpr ⟨nodup, List.nodup_singleton _, fun x hx y hy same => ?_⟩
          rw [same, List.mem_singleton.mp hy] at hx
          exact fresh hx
    · cases h
  | modify t rid data =>
    have sound := inv.sound t
    simp only [perRowStep] at h
    split at h
    · next accesses pc =>
      rw [← Option.some.inj h]
      rw [pc] at sound
      refine inv.goto (fun y => by rw [pc]; exact Iff.rfl) (fun b => by rw [pc]; exact Iff.rfl)
        (fun b hb => ?_) ⟨sound.1, ?_⟩
      · obtain ⟨c, hc, row, read⟩ := mem_modify hb
        rw [pc]
        exact .inl ⟨c, hc, row, read⟩
      · rw [map_origRow_modify]
        exact sound.2
    · cases h
  | finish t =>
    have sound := inv.sound t
    simp only [perRowStep] at h
    split at h
    · next accesses pc =>
      rw [← Option.some.inj h]
      rw [pc] at sound
      -- sorting by primary key changes the order of the accesses only
      have perm := BubbleSort.perm_sort names.later accesses
      refine inv.goto (fun y => by rw [pc]; exact Iff.rfl) (fun b => by rw [pc]; exact Iff.rfl)
        (fun b hb => ?_) ⟨sound.1, ?_, nofun⟩
      · rw [pc]
        exact .inl ⟨b, perm.mem_iff.mp hb, rfl, rfl⟩
      · exact (perm.map _).nodup_iff.mpr sound.2
    · cases h
  | rollback t =>
    have sound := inv.sound t
    simp only [perRowStep] at h
    split at h
    · next accesses pc =>
      rw [← Option.some.inj h]
      rw [pc] at sound
      exact inv.abort sound.2 (by rw [pc]; rfl) (by rw [pc]; rfl)
    · cases h
  | next t => exact inv.next h

theorem of_reachable (boundary : Clock.AtBoundary cfg currTs)
    (reached : (perRowMachine cfg currTs names init).Reachable Free s) :
    PerRowInv cfg init s := by
  refine reached.invariant (I := PerRowInv cfg init) (fun s start => ?_)
    fun s a s' inv _ next => inv.step next
  cases start
  constructor
  · exact Clock.sound_init boundary
  · exact fun x => (Clock.sound_init boundary).horizon_pos
  · exact fun x t => iff_of_false nofun nofun
  · exact fun t => trivial
  · exact nofun
  · exact nofun
  · exact fun x _ => rfl
  · exact nofun
  · exact .nil
  · trivial
  · rfl

/-- A row changes only by a write of a committed transaction. -/
theorem changes {l : PerRowLabel ρ V τ} (inv : PerRowInv cfg init s)
    (h : perRowStep cfg names s l = some s') {x : ρ} (ne : (s'.row x).data ≠ (s.row x).data) :
    ∃ t rc accesses k rest, l = .next t ∧ s.pc t = .cleanup rc accesses k rest ∧ rc ≠ .Abort ∧
      entry (s.endTs t) accesses ∈ s.log ∧ (entry (s.endTs t) accesses).writesTo x := by
  have keep {u : PerRowState ρ V τ} (e : u = s') (row : u.row = s.row) : False := by
    rw [← e, row] at ne
    exact ne rfl
  cases l with
  | begin t =>
    simp only [perRowStep] at h
    split at h
    · exact (keep (Option.some.inj h) rfl).elim
    · cases h
  | getRow t row type =>
    simp only [perRowStep] at h
    split at h
    · obtain ⟨-, h⟩ := (Option.ite_none_right_eq_some).mp h
      split at h <;> exact (keep (Option.some.inj h) rfl).elim
    · cases h
  | modify t rid data =>
    simp only [perRowStep] at h
    split at h
    · exact (keep (Option.some.inj h) rfl).elim
    · cases h
  | finish t =>
    simp only [perRowStep] at h
    split at h
    · exact (keep (Option.some.inj h) rfl).elim
    · cases h
  | rollback t =>
    simp only [perRowStep] at h
    split at h
    · exact (keep (Option.some.inj h) rfl).elim
    · cases h
  | next t =>
    have sound := inv.sound t
    simp only [perRowStep, perRowNext] at h
    split at h
    · cases h
    · cases h
    · exact (keep (Option.some.inj h) rfl).elim
    · obtain ⟨-, h⟩ := (Option.ite_none_right_eq_some).mp h
      rw [← Option.some.inj h] at ne
      exact absurd (PerRowState.setLatch_data ..) ne
    · split at h <;> exact (keep (Option.some.inj h) rfl).elim
    · exact (keep (Option.some.inj h) rfl).elim
    · next rc accesses n a rest pc =>
      rw [pc] at sound
      obtain ⟨mem, sub, -⟩ := sound
      simp only [PerRowState.returnRow] at h
      split at h
      · next write =>
        obtain ⟨type, ok⟩ := returnType_eq_WR.mp write
        refine ⟨t, rc, accesses, n, a :: rest, rfl, pc, ok, mem ok,
          entry_writesTo.mpr ⟨a, sub a List.mem_cons_self, type, ?_⟩⟩
        -- the data that changes is that of the row of the access
        by_contra other
        rw [← Option.some.inj h] at ne
        exact ne (congrArg RowOcc.data (Function.update_of_ne (Ne.symm other) ..))
      · exact (keep (Option.some.inj h) rfl).elim
    · exact (keep (Option.some.inj h) rfl).elim
    · rw [← Option.some.inj h] at ne
      exact absurd (PerRowState.setLatch_data ..) ne

end PerRowInv

/-! ### The end of a transaction -/

variable [DecidableEq τ] {currTs : τ → Nat} {names : RowNames ρ}

/-- The release loop runs to its end without waiting. -/
theorem release_runs (cfg : TsConfig) (currTs : τ → Nat) (names : RowNames ρ) (init : ρ → V)
    (rest : List (Access ρ V)) (pc : s.pc t = .release rest) :
    ∃ n s', (perRowMachine cfg currTs names init).run s (List.replicate n (.next t)) = some s' ∧
      s'.pc t = .idle := by
  induction rest generalizing s with
  | nil =>
    refine ⟨1, s.goto t .idle, ?_, Function.update_self ..⟩
    simp [Machine.run, perRowMachine, perRowStep, perRowNext, pc]
  | cons a rest ih =>
    obtain ⟨n, s', run, done⟩ := ih (s := (s.setLatch a.origRow none).goto t (.release rest))
      (Function.update_self ..)
    refine ⟨n + 1, s', ?_, done⟩
    rw [List.replicate_succ, Machine.run_cons]
    simpa [perRowMachine, perRowStep, perRowNext, pc] using run

/-- From the outcome of the validation on, a transaction runs to its end without waiting. -/
theorem cleanup_runs (cfg : TsConfig) (currTs : τ → Nat) (names : RowNames ρ) (init : ρ → V)
    {rc : RC} {accesses : List (Access ρ V)} {k : Nat} (rest : List (Access ρ V))
    (pc : s.pc t = .cleanup rc accesses k rest) :
    ∃ n s', (perRowMachine cfg currTs names init).run s (List.replicate n (.next t)) = some s' ∧
      s'.pc t = .idle := by
  induction rest generalizing s with
  | nil =>
    obtain ⟨n, s', run, done⟩ := release_runs cfg currTs names init
      (s := s.goto t (.release (accesses.take k))) _ (Function.update_self ..)
    refine ⟨n + 1, s', ?_, done⟩
    rw [List.replicate_succ, Machine.run_cons]
    simpa [perRowMachine, perRowStep, perRowNext, pc] using run
  | cons a rest ih =>
    obtain ⟨n, s', run, done⟩ := ih
      (s := (s.returnRow t rc a).goto t (.cleanup rc accesses k rest)) (Function.update_self ..)
    refine ⟨n + 1, s', ?_, done⟩
    rw [List.replicate_succ, Machine.run_cons]
    simpa [perRowMachine, perRowStep, perRowNext, pc] using run

/-- In an order that places a log, what is before a transaction is what has smaller times. -/
theorem reads_of_replays {log : List (Entry ρ V)} (increasing : log.Pairwise (·.time < ·.time))
    (replays : Replays init log) {e : Entry ρ V} (he : e ∈ log) {r : ρ × V} (hr : r ∈ e.reads) :
    after init (log.filter (·.time < e.time)) r.1 = r.2 := by
  obtain ⟨front, back, rfl⟩ := List.append_of_mem he
  obtain ⟨-, later, before⟩ := List.pairwise_append.mp increasing
  have earlier : (front ++ e :: back).filter (·.time < e.time) = front := by
    rw [List.filter_append, List.filter_eq_self.mpr, List.filter_eq_nil_iff.mpr, List.append_nil]
    · intro f hf
      rcases List.mem_cons.mp hf with rfl | hf
      · simp
      · have := (List.pairwise_cons.mp later).1 f hf
        simp only [decide_eq_true_eq]
        omega
    · intro f hf
      simpa using before f hf e List.mem_cons_self
  rw [earlier]
  exact (replays_append.mp replays).2.1 r hr

/-- **Per-row OCC is serializable in the order of end timestamps.** Committed transactions read
what those with smaller end timestamps leave, a row without a write to be done has the value
of the committed transactions, only they change rows, no assertion fails, and after either
outcome a transaction runs to its end without waiting, where it holds no latch. The timestamps
are those of the manager: with batches no thread starts amid one. -/
theorem per_row_serializable (cfg : TsConfig) (currTs : τ → Nat)
    (boundary : Clock.AtBoundary cfg currTs) (names : RowNames ρ) (init : ρ → V)
    (s : PerRowState ρ V τ) (reached : (perRowMachine cfg currTs names init).Reachable Free s) :
    s.log.Pairwise (·.time < ·.time) ∧
    (∀ e ∈ s.log, ∀ r ∈ e.reads, after init (s.log.filter (·.time < e.time)) r.1 = r.2) ∧
    (∀ x, (∀ t, ∀ a ∈ (s.pc t).owed, a.origRow ≠ x) → (s.row x).data = after init s.log x) ∧
    (∀ l s' x, perRowStep cfg names s l = some s' → (s'.row x).data ≠ (s.row x).data →
      ∃ t rc accesses k rest, l = .next t ∧ s.pc t = .cleanup rc accesses k rest ∧ rc ≠ .Abort ∧
        entry (s.endTs t) accesses ∈ s.log ∧ (entry (s.endTs t) accesses).writesTo x) ∧
    s.failed = false ∧
    (∀ x t, (s.row x).latch = some t ↔ x ∈ (s.pc t).held) ∧
    (∀ t rc accesses k rest, s.pc t = .cleanup rc accesses k rest →
      ∃ n s', (perRowMachine cfg currTs names init).run s (List.replicate n (.next t)) = some s' ∧
        s'.pc t = .idle ∧ ∀ x, (s'.row x).latch ≠ some t) := by
  have inv := PerRowInv.of_reachable boundary reached
  refine ⟨inv.increasing, fun e he r hr => reads_of_replays inv.increasing inv.replays he hr,
    fun x none => (inv.current x none).symm, fun l s' x h ne => inv.changes h ne, inv.passes,
    inv.latches, fun t rc accesses k rest pc => ?_⟩
  obtain ⟨n, s', run, done⟩ := cleanup_runs cfg currTs names init rest pc
  refine ⟨n, s', run, done, fun x held => ?_⟩
  have inv' := PerRowInv.of_reachable boundary (reached.along (Machine.along_of_run run))
  rw [inv'.latches, done] at held
  cases held

/-- Two transactions that overlap: the second cannot commit. -/
theorem per_row_serializable_conflict :
    ∃ s : PerRowState Nat Nat Nat, s.log = [⟨9, [(7, 0), (5, 0)], [(7, 9)]⟩] ∧
      (s.row 7).data = 9 ∧ s.failed = false ∧
        ∀ e ∈ s.log, ∀ r ∈ e.reads,
          after (fun _ => 0) (s.log.filter (·.time < e.time)) r.1 = r.2 := by
  let cfg : TsConfig := ⟨.TS_CAS, true, 4, fun _ => rfl, by decide⟩
  let names : RowNames Nat := ⟨fun _ => [], fun x => 10 - x⟩
  obtain ⟨s, path, e⟩ := Machine.exists_along (perRowMachine cfg (4 * ·) names fun _ => 0) Free
    ⟨.init (4 * ·), fun _ => .init 0, fun _ => 0, fun _ => 0, fun _ => .idle, [], false⟩
    ([.begin 0, .begin 1, .getRow 0 5 .RD, .getRow 0 7 .WR, .getRow 1 7 .RD, .modify 0 1 9,
      .finish 0, .finish 1] ++ List.replicate 11 (.next 0) ++ List.replicate 6 (.next 1))
    (fun s => (s.log, (s.row 7).data)) ([⟨9, [(7, 0), (5, 0)], [(7, 9)]⟩], 9) (by decide)
  simp only [Prod.mk.injEq] at e
  have guarantees := per_row_serializable cfg (4 * ·) (fun _ t => Nat.mul_mod_right 4 t) names
    (fun _ => 0) s ⟨_, _, rfl, path⟩
  exact ⟨s, e.1, e.2, guarantees.2.2.2.2.1, guarantees.2.1⟩

end DBx1000.Occ
