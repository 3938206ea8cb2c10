import DBx1000.Hekaton.Transaction
import DBx1000.Hekaton.Versions

/-!
# Validity of committed reads

A committed read stays valid if no version enters between the version that was read and the
commit timestamp of the reader. What could enter is pending: it belongs to a transaction that
has pre-written the row and has drawn its timestamp. `prepare_read` looks at the versions
that are there, and at none that is pending; hence the condition `NoneSmaller`.

Proof idea: `Later` says what one step may do to the versions of all rows: it adds only what
was pending, and what becomes pending has a timestamp above the horizon of the clock. Both
a read that is still to be prepared and a valid read survive such a step.
-/

namespace DBx1000.Hekaton

open Transition RowHekaton RowHekaton.Versions

variable {ρ τ : Type*} {cfg : TsConfig} {currTs : τ → Nat} {gThreadCnt : Nat} {thdId : τ → Nat}
variable {s s' : HekatonState ρ τ} {vs vs' : ρ → List WriteHisEntry} {t : τ} {q : HekatonPc ρ}

/-! ### What may still be committed -/

/-- The transaction has pre-written the row and may commit with the timestamp. -/
def Commits (s : HekatonState ρ τ) (u : τ) (x : ρ) (c : Nat) : Prop :=
  x ∈ (s.pc u).pendingRows ∧ (s.pc u).committing = some c

/-- A read with a commit timestamp: no version is between them, nor will there be one. -/
def Valid (cfg : TsConfig) (s : HekatonState ρ τ) (x : ρ) (begin commitTs : Nat) : Prop :=
  commitTs < s.clock.horizon cfg ∧ (∀ v ∈ s.versions x, v ≤ begin ∨ commitTs ≤ v) ∧
    ∀ u c, Commits s u x c → commitTs ≤ c

/-- A read without a commit timestamp: a version with the row that was read is the version that
was read, or it is newer than the transaction. -/
def Recognised (s : HekatonState ρ τ) (vs : ρ → List WriteHisEntry) (t : τ) (a : Access ρ) : Prop :=
  (∀ e ∈ vs a.origRow, e.row = a.data → e.begin = a.readBegin ∨ s.ts t < e.begin) ∧
    ∀ u c, Commits s u a.origRow c → (s.row a.origRow).behind.row = a.data → s.ts t < c

namespace HekatonPc

/-- The accesses that have no commit timestamp yet, if the transaction may still get one. -/
def unprepared : HekatonPc ρ → List (Access ρ)
  | .running rest | .prepare _ _ rest => rest
  | _ => []

/-- The accesses that have been prepared. -/
def prepared : HekatonPc ρ → List (Access ρ)
  | .prepare _ done _ => done
  | _ => []

theorem committing_post {commitTs : Nat} {rc : RC} (accesses rest : List (Access ρ)) :
    (HekatonPc.post commitTs rc accesses).committing = (HekatonPc.post commitTs rc rest).committing := by
  cases rc <;> rfl

end HekatonPc

/-- What a step may do to the versions. -/
structure Later (cfg : TsConfig) (s : HekatonState ρ τ) (vs : ρ → List WriteHisEntry)
    (s' : HekatonState ρ τ) (vs' : ρ → List WriteHisEntry) : Prop where
  horizon : s.clock.horizon cfg ≤ s'.clock.horizon cfg
  commits : ∀ u x c, Commits s' u x c → s.clock.horizon cfg ≤ c ∨
    Commits s u x c ∧ (s'.row x).behind.row = (s.row x).behind.row
  versions : ∀ x, ∀ v ∈ s'.versions x, v ∈ s.versions x ∨ ∃ u, Commits s u x v
  window : ∀ x, ∀ e ∈ vs' x, (∃ f ∈ vs x, f.row = e.row ∧ f.begin = e.begin) ∨
    ∃ u, Commits s u x e.begin ∧ (s.row x).behind.row = e.row

/-- A valid read stays valid. -/
theorem Valid.later {x : ρ} {begin commitTs : Nat} (h : Valid cfg s x begin commitTs)
    (later : Later cfg s vs s' vs') : Valid cfg s' x begin commitTs := by
  obtain ⟨drawn, versions, pending⟩ := h
  refine ⟨Nat.lt_of_lt_of_le drawn later.horizon, fun v hv => ?_, fun u c hc => ?_⟩
  · rcases later.versions x v hv with hv | ⟨u, hu⟩
    · exact versions v hv
    · exact .inr (pending u v hu)
  · rcases later.commits u x c hc with new | ⟨hc, -⟩
    · exact Nat.le_of_lt (Nat.lt_of_lt_of_le drawn new)
    · exact pending u c hc

/-- So does a read of which the version is recognised. -/
theorem Recognised.later {a : Access ρ} (h : Recognised s vs t a) (later : Later cfg s vs s' vs')
    (ts : s'.ts t = s.ts t) (drawn : s.ts t < s.clock.horizon cfg) : Recognised s' vs' t a := by
  obtain ⟨window, pending⟩ := h
  refine ⟨fun e he row => ?_, fun u c hc row => ?_⟩
  · rw [ts]
    rcases later.window _ e he with ⟨f, hf, same, begin⟩ | ⟨u, hu, behind⟩
    · rw [← begin]
      exact window f hf (same.trans row)
    · exact .inr (pending u _ hu (behind.trans row))
  · rw [ts]
    rcases later.commits u _ c hc with new | ⟨hc, behind⟩
    · exact Nat.lt_of_lt_of_le drawn new
    · exact pending u c hc (behind.symm.trans row)

/-! ### The invariant -/

structure HekatonInv (cfg : TsConfig) (s : HekatonState ρ τ) (vs : ρ → List WriteHisEntry) :
    Prop where
  sound : s.clock.Sound cfg
  rows : ∀ x, Versions (s.row x) (vs x)
  suffix : ∀ x, (vs x).map (·.begin) <:+ s.versions x
  sorted : ∀ x, (s.versions x).Pairwise (· < ·)
  spent : ∀ x, ∀ v ∈ s.versions x, s.clock.Spent cfg v
  drawn : ∀ t c, (s.pc t).committing = some c → s.clock.Spent cfg c
  newer : ∀ t x c, Commits s t x c → ∀ v ∈ s.versions x, v < c
  pending : ∀ x, (s.row x).existsPrewrite = true ↔ ∃ t, x ∈ (s.pc t).pendingRows
  nodup : ∀ t, (s.pc t).pendingRows.Nodup
  alone : ∀ t u x, x ∈ (s.pc t).pendingRows → x ∈ (s.pc u).pendingRows → t = u
  started : ∀ t, s.pc t ≠ .idle → s.ts t < s.clock.horizon cfg ∧ (∀ x, s.ts t ∉ s.versions x) ∧
    ∀ u c, (s.pc u).committing = some c → s.ts t ≠ c
  reads : ∀ t, ∀ a ∈ (s.pc t).unprepared, a.type = .RD → Recognised s vs t a
  prepared : ∀ t, ∀ a ∈ (s.pc t).prepared, a.type = .RD → ∀ c, (s.pc t).committing = some c →
    Valid cfg s a.origRow a.readBegin c
  valid : ∀ r ∈ s.reads, Valid cfg s r.row r.begin r.commitTs

variable [DecidableEq ρ] [DecidableEq τ]

/-- Nothing is committed or pending, but the versions that the rows begin with. -/
theorem hekatonInv_init (boundary : Clock.AtBoundary cfg currTs)
    (start : (hekatonMachine cfg currTs gThreadCnt thdId ρ).init s) :
    HekatonInv cfg s fun _ => [⟨false, false, 0, ⊤, some 0⟩] := by
  cases start
  constructor
  case sound => exact Clock.sound_init boundary
  case rows => exact fun _ => versions_init
  case suffix => exact fun _ => List.suffix_rfl
  case sorted => exact fun _ => List.pairwise_singleton ..
  case spent =>
    intro x v hv
    rw [List.mem_singleton.mp hv]
    exact Clock.Spent.init boundary
  case drawn => exact fun _ _ => nofun
  case newer => exact fun _ _ _ h => nomatch h.1
  case pending => exact fun _ => ⟨nofun, fun ⟨_, h⟩ => nomatch h⟩
  case nodup => exact fun _ => .nil
  case alone => exact fun _ _ _ h => nomatch h
  case started => exact fun _ busy => absurd rfl busy
  case reads => exact fun _ _ h => nomatch h
  case prepared => exact fun _ _ h => nomatch h
  case valid => exact fun _ h => nomatch h

namespace HekatonInv

/-! ### What a step keeps of all threads -/

omit [DecidableEq ρ] [DecidableEq τ] in
theorem reads_later (inv : HekatonInv cfg s vs) (later : Later cfg s vs s' vs')
    (goes : s'.pc t = q) (pc : ∀ u, u ≠ t → s'.pc u = s.pc u) (ts : ∀ u, u ≠ t → s'.ts u = s.ts u)
    (own : ∀ a ∈ q.unprepared, a.type = .RD → Recognised s' vs' t a) (u : τ) :
    ∀ a ∈ (s'.pc u).unprepared, a.type = .RD → Recognised s' vs' u a := by
  by_cases e : u = t
  · rw [e, goes]
    exact own
  · rw [pc u e]
    intro a ha read
    have busy : s.pc u ≠ .idle := fun idle => by
      rw [idle] at ha
      cases ha
    exact (inv.reads u a ha read).later later (ts u e) (inv.started u busy).1

omit [DecidableEq ρ] [DecidableEq τ] in
theorem prepared_later (inv : HekatonInv cfg s vs) (later : Later cfg s vs s' vs')
    (goes : s'.pc t = q) (pc : ∀ u, u ≠ t → s'.pc u = s.pc u)
    (own : ∀ a ∈ q.prepared, a.type = .RD → ∀ c, q.committing = some c →
      Valid cfg s a.origRow a.readBegin c) (u : τ) :
    ∀ a ∈ (s'.pc u).prepared, a.type = .RD → ∀ c, (s'.pc u).committing = some c →
      Valid cfg s' a.origRow a.readBegin c := by
  intro a ha read c hc
  by_cases e : u = t
  · rw [e, goes] at ha hc
    exact (own a ha read c hc).later later
  · rw [pc u e] at ha hc
    exact (inv.prepared u a ha read c hc).later later

/-! ### Steps of one thread alone -/

omit [DecidableEq ρ] in
/-- A thread moves on with the same pre-writes; it may have drawn a timestamp. -/
theorem move (inv : HekatonInv cfg s vs) {clock : Clock τ} {ts txnId thdTxnId : τ → Nat}
    (sound : clock.Sound cfg) (horizon : s.clock.horizon cfg ≤ clock.horizon cfg)
    (spent : ∀ v, s.clock.Spent cfg v → clock.Spent cfg v)
    (same : q.pendingRows = (s.pc t).pendingRows)
    (comm : ∀ c, q.committing = some c →
      (s.pc t).committing = some c ∨ s.clock.horizon cfg ≤ c ∧ clock.Spent cfg c)
    (others : ∀ u, u ≠ t → ts u = s.ts u)
    (started : q ≠ .idle → ts t < clock.horizon cfg ∧ (∀ x, ts t ∉ s.versions x) ∧
      ∀ u c, (Function.update s.pc t q u).committing = some c → ts t ≠ c)
    (reads : ∀ a ∈ q.unprepared, a.type = .RD →
      ts t = s.ts t ∧ s.pc t ≠ .idle ∧ Recognised s vs t a)
    (prepared : ∀ a ∈ q.prepared, a.type = .RD → ∀ c, q.committing = some c →
      Valid cfg s a.origRow a.readBegin c) :
    HekatonInv cfg { s with
      clock := clock, pc := Function.update s.pc t q, ts := ts, txnId := txnId
      thdTxnId := thdTxnId } vs := by
  -- the pending rows are the same, and a commit timestamp is an old one or has just been drawn
  have rows (u : τ) : (Function.update s.pc t q u).pendingRows = (s.pc u).pendingRows := by
    rw [Function.update_apply]
    split
    · next e => rw [e, same]
    · rfl
  have drawn (u : τ) (c : Nat) (hc : (Function.update s.pc t q u).committing = some c) :
      (s.pc u).committing = some c ∨ s.clock.horizon cfg ≤ c ∧ clock.Spent cfg c := by
    rw [Function.update_apply] at hc
    split at hc
    · next e =>
      rw [e]
      exact comm c hc
    · exact .inl hc
  have later : Later cfg s vs { s with
      clock := clock, pc := Function.update s.pc t q, ts := ts, txnId := txnId
      thdTxnId := thdTxnId } vs := by
    constructor
    case horizon => exact horizon
    case commits =>
      rintro u x c ⟨mem, hc⟩
      rcases drawn u c hc with hc | ⟨new, -⟩
      · exact .inr ⟨⟨(rows u).subst mem, hc⟩, rfl⟩
      · exact .inl new
    case versions => exact fun x v hv => .inl hv
    case window => exact fun x e he => .inl ⟨e, he, rfl, rfl⟩
  constructor
  case sound => exact sound
  case rows => exact inv.rows
  case suffix => exact inv.suffix
  case sorted => exact inv.sorted
  case spent => exact fun x v hv => spent v (inv.spent x v hv)
  case drawn =>
    intro u c hc
    rcases drawn u c hc with hc | ⟨-, new⟩
    · exact spent c (inv.drawn u c hc)
    · exact new
  -- a timestamp that has just been drawn is above all versions
  case newer =>
    intro u x c hc v hv
    rcases later.commits u x c hc with new | ⟨hc, -⟩
    · exact Nat.lt_of_lt_of_le (inv.spent x v hv).lt new
    · exact inv.newer u x c hc v hv
  case pending =>
    intro x
    rw [inv.pending]
    exact exists_congr fun u => by rw [rows]
  case nodup =>
    intro u
    rw [rows]
    exact inv.nodup u
  case alone =>
    intro u w x hu hw
    rw [rows] at hu hw
    exact inv.alone u w x hu hw
  -- only the start of `t` is new
  case started =>
    intro u busy
    change Function.update s.pc t q u ≠ .idle at busy
    rw [Function.update_apply] at busy
    split at busy
    · next e =>
      rw [e]
      exact started busy
    · next ne =>
      obtain ⟨before, new, apart⟩ := inv.started u busy
      change ts u < _ ∧ (∀ x, ts u ∉ s.versions x) ∧ ∀ w c, _ → ts u ≠ c
      rw [others u ne]
      refine ⟨Nat.lt_of_lt_of_le before horizon, new, fun w c hc => ?_⟩
      rcases drawn w c hc with hc | ⟨above, -⟩
      · exact apart w c hc
      · exact Nat.ne_of_lt (Nat.lt_of_lt_of_le before above)
  case reads =>
    refine inv.reads_later later (Function.update_self ..)
      (fun u ne => Function.update_of_ne ne ..) others ?_
    intro a ha read
    obtain ⟨ts, busy, known⟩ := reads a ha read
    exact known.later later ts (inv.started t busy).1
  case prepared =>
    exact inv.prepared_later later (Function.update_self ..)
      (fun u ne => Function.update_of_ne ne ..) prepared
  case valid => exact fun r hr => (inv.valid r hr).later later

omit [DecidableEq ρ] in
/-- A thread moves on within its transaction. -/
theorem goto (inv : HekatonInv cfg s vs) (busy : s.pc t ≠ .idle)
    (same : q.pendingRows = (s.pc t).pendingRows)
    (comm : ∀ c, q.committing = some c → (s.pc t).committing = some c)
    (reads : ∀ a ∈ q.unprepared, a.type = .RD → Recognised s vs t a)
    (prepared : ∀ a ∈ q.prepared, a.type = .RD → ∀ c, q.committing = some c →
      Valid cfg s a.origRow a.readBegin c) : HekatonInv cfg (s.goto t q) vs := by
  refine inv.move inv.sound (Nat.le_refl _) (fun _ => id) same (fun c hc => .inl (comm c hc))
    (fun _ _ => rfl) (fun _ => ?_) (fun a ha read => ⟨rfl, busy, reads a ha read⟩) prepared
  obtain ⟨before, new, apart⟩ := inv.started t busy
  refine ⟨before, new, fun u c hc => ?_⟩
  rw [Function.update_apply] at hc
  split at hc
  · exact apart t c (comm c hc)
  · exact apart u c hc

omit [DecidableEq ρ] in
/-- `get_next_ts` gives a timestamp that no version has and no transaction has drawn. -/
theorem start (inv : HekatonInv cfg s vs) (pc : s.pc t = .idle) :
    HekatonInv cfg (s.start cfg gThreadCnt thdId t) vs := by
  refine inv.move (q := .running []) inv.sound.getNextTs Clock.horizon_getNextTs
    (fun v hv => hv.getNextTs.1) (by rw [pc]; rfl) (fun _ => nofun)
    (fun u ne => Function.update_of_ne ne ..) (fun _ => ?_) (fun _ => nofun) (fun _ => nofun)
  rw [Function.update_self]
  refine ⟨inv.sound.getNextTs_lt, fun x mem => ?_, fun u c hc is => ?_⟩
  · exact (inv.spent x _ mem).getNextTs.2 rfl
  · rw [Function.update_apply] at hc
    split at hc
    · cases hc
    · exact (inv.drawn u c hc).getNextTs.2 is.symm

omit [DecidableEq ρ] in
/-- `get_ts` gives a timestamp above all that there are. -/
theorem draw (inv : HekatonInv cfg s vs) {p : Nat → HekatonPc ρ} (busy : s.pc t ≠ .idle)
    (same : ∀ c, (p c).pendingRows = (s.pc t).pendingRows)
    (comm : ∀ c d, (p c).committing = some d → d = c)
    (reads : ∀ c, ∀ a ∈ (p c).unprepared, a ∈ (s.pc t).unprepared)
    (prepared : ∀ c, (p c).prepared = []) : HekatonInv cfg (s.draw cfg t p) vs := by
  have horizon : s.clock.horizon cfg ≤ (s.clock.getTs cfg).2.horizon cfg :=
    Nat.le_of_lt Clock.horizon_getTs
  obtain ⟨before, new, apart⟩ := inv.started t busy
  refine inv.move (q := p (s.clock.getTs cfg).1) inv.sound.getTs horizon (fun v hv => hv.getTs)
    (same _) (fun c hc => .inr ?_) (fun _ _ => rfl)
    (fun _ => ⟨Nat.lt_of_lt_of_le before horizon, new, fun u c hc => ?_⟩)
    (fun a ha read => ⟨rfl, busy, inv.reads t a (reads _ a ha) read⟩) (fun a ha => ?_)
  · rw [comm _ c hc]
    exact ⟨Clock.getTs_time.ge, .self inv.sound⟩
  · rw [Function.update_apply] at hc
    split at hc
    · rw [comm _ c hc, Clock.getTs_time]
      exact Nat.ne_of_lt before
    · exact apart u c hc
  · rw [prepared] at ha
    cases ha

/-! ### Steps of a writer -/

end HekatonInv

/-- A thread changes the one row that only it has pre-written, if anybody: by a pre-write, or
when it takes its pre-write back or commits it. -/
structure RowStep (s : HekatonState ρ τ) (vs : ρ → List WriteHisEntry) (t : τ) (q : HekatonPc ρ)
    (x : ρ) (r : RowHekaton) (ws : List WriteHisEntry) (versions : ρ → List Nat) : Prop where
  now : Versions r ws
  busy : s.pc t ≠ .idle
  comm : ∀ c, q.committing = some c → (s.pc t).committing = some c
  mine : r.existsPrewrite = true ↔ x ∈ q.pendingRows
  alone : ∀ u, u ≠ t → x ∉ (s.pc u).pendingRows
  open_ : x ∈ q.pendingRows → q.committing = none
  same : ∀ y, y ≠ x → (y ∈ q.pendingRows ↔ y ∈ (s.pc t).pendingRows)
  nodup : q.pendingRows.Nodup
  off : ∀ y, y ≠ x → versions y = s.versions y
  /-- The row gets no version, or the one that the thread commits. -/
  at_ : versions x = s.versions x ∧ ids ws <:+ ids (vs x) ∨
    ∃ c, Commits s t x c ∧ versions x = s.versions x ++ [c] ∧
      ids ws = ids (vs x) ++ [(c, (s.row x).behind.row)]
  reads : ∀ a ∈ q.unprepared, a.type = .RD → a ∈ (s.pc t).unprepared
  prepared : q.prepared = []

namespace RowStep

variable {x : ρ} {r : RowHekaton} {ws : List WriteHisEntry} {versions : ρ → List Nat}

/-- The state behind the step. -/
abbrev after (_ : RowStep s vs t q x r ws versions) : HekatonState ρ τ :=
  { (s.setRow x r).goto t q with versions := versions }

/-- No thread draws a commit timestamp here. -/
theorem committing (step : RowStep s vs t q x r ws versions) {u : τ} {c : Nat}
    (hc : (step.after.pc u).committing = some c) : (s.pc u).committing = some c := by
  change (Function.update s.pc t q u).committing = some c at hc
  rw [Function.update_apply] at hc
  split at hc
  · next e => exact e ▸ step.comm c hc
  · exact hc

/-- Nobody is going to commit the row now: the thread has done it, or has not drawn yet. -/
theorem commits (step : RowStep s vs t q x r ws versions) {u : τ} {y : ρ} {c : Nat}
    (hc : Commits step.after u y c) : y ≠ x ∧ Commits s u y c := by
  obtain ⟨mem, drawn⟩ := hc
  have before := step.committing drawn
  change y ∈ (Function.update s.pc t q u).pendingRows at mem
  change (Function.update s.pc t q u).committing = some c at drawn
  rw [Function.update_apply] at mem drawn
  split at mem
  · next e =>
    rw [if_pos e] at drawn
    have ne : y ≠ x := by
      rintro rfl
      rw [step.open_ mem] at drawn
      cases drawn
    exact ⟨ne, e ▸ (step.same y ne).mp mem, before⟩
  · next ne =>
    refine ⟨?_, mem, before⟩
    rintro rfl
    exact step.alone u ne mem

omit [DecidableEq τ] in
/-- A new version was pending. -/
theorem added (step : RowStep s vs t q x r ws versions) {y : ρ} {v : Nat} (hv : v ∈ versions y) :
    v ∈ s.versions y ∨ Commits s t y v := by
  by_cases e : y = x
  · subst e
    rcases step.at_ with ⟨at_, -⟩ | ⟨c, hc, at_, -⟩
    · rw [at_] at hv
      exact .inl hv
    · rw [at_] at hv
      rcases List.mem_append.mp hv with hv | hv
      · exact .inl hv
      · rw [List.mem_singleton.mp hv]
        exact .inr hc
  · rw [step.off y e] at hv
    exact .inl hv

omit [DecidableEq ρ] [DecidableEq τ] in
/-- An entry of the row was there before, or is the version that the thread commits. -/
theorem window (step : RowStep s vs t q x r ws versions) {e : WriteHisEntry} (he : e ∈ ws) :
    (∃ f ∈ vs x, f.row = e.row ∧ f.begin = e.begin) ∨
      ∃ u, Commits s u x e.begin ∧ (s.row x).behind.row = e.row := by
  have mem : (e.begin, e.row) ∈ ids ws := List.mem_map_of_mem he
  have old (mem : (e.begin, e.row) ∈ ids (vs x)) :
      ∃ f ∈ vs x, f.row = e.row ∧ f.begin = e.begin := by
    obtain ⟨f, hf, is⟩ := List.mem_map.mp mem
    exact ⟨f, hf, (Prod.mk.inj is).2, (Prod.mk.inj is).1⟩
  rcases step.at_ with ⟨-, suffix⟩ | ⟨c, hc, -, grows⟩
  · exact .inl (old (suffix.mem mem))
  · rw [grows] at mem
    rcases List.mem_append.mp mem with mem | new
    · exact .inl (old mem)
    · obtain ⟨begin, row⟩ := Prod.mk.inj (List.mem_singleton.mp new)
      rw [begin]
      exact .inr ⟨t, hc, row.symm⟩

theorem later (step : RowStep s vs t q x r ws versions) :
    Later cfg s vs step.after (Function.update vs x ws) := by
  constructor
  case horizon => exact Nat.le_refl _
  case commits =>
    intro u y c hc
    obtain ⟨ne, hc⟩ := step.commits hc
    refine .inr ⟨hc, ?_⟩
    change (Function.update s.row x r y).behind.row = _
    rw [Function.update_of_ne ne]
  case versions =>
    intro y v hv
    rcases step.added hv with hv | hv
    · exact .inl hv
    · exact .inr ⟨t, hv⟩
  case window =>
    intro y e he
    rw [Function.update_apply] at he
    split at he
    · next is => exact is ▸ step.window he
    · exact .inl ⟨e, he, rfl, rfl⟩

omit [DecidableEq τ] in
/-- The row keeps the newest of its versions. -/
theorem suffix (step : RowStep s vs t q x r ws versions) (inv : HekatonInv cfg s vs) (y : ρ) :
    (Function.update vs x ws y).map (·.begin) <:+ versions y := by
  have stamps (es : List WriteHisEntry) : es.map (·.begin) = (ids es).map Prod.fst := by
    rw [ids, List.map_map]
    rfl
  rw [Function.update_apply]
  split
  · next e =>
    have was := inv.suffix x
    rw [e, stamps]
    rw [stamps] at was
    rcases step.at_ with ⟨at_, suffix⟩ | ⟨c, -, at_, grows⟩
    · rw [at_]
      exact (suffix.map _).trans was
    · obtain ⟨front, split⟩ := was
      rw [at_, grows, ← split, List.map_append, List.append_assoc]
      exact List.suffix_append ..
  · next ne =>
    rw [step.off y ne]
    exact inv.suffix y

omit [DecidableEq τ] in
theorem sorted (step : RowStep s vs t q x r ws versions) (inv : HekatonInv cfg s vs) (y : ρ) :
    (versions y).Pairwise (· < ·) := by
  by_cases e : y = x
  · rw [e]
    rcases step.at_ with ⟨at_, -⟩ | ⟨c, hc, at_, -⟩
    · rw [at_]
      exact inv.sorted x
    · -- the commit timestamp is above those of all versions
      rw [at_]
      refine List.pairwise_append.mpr ⟨inv.sorted x, List.pairwise_singleton .., ?_⟩
      intro v hv w hw
      rw [List.mem_singleton.mp hw]
      exact inv.newer t x c hc v hv
  · rw [step.off y e]
    exact inv.sorted y

/-- A pre-write is still the business of exactly one thread. -/
theorem pending (step : RowStep s vs t q x r ws versions) (inv : HekatonInv cfg s vs) (y : ρ) :
    (step.after.row y).existsPrewrite = true ↔ ∃ u, y ∈ (step.after.pc u).pendingRows := by
  change (Function.update s.row x r y).existsPrewrite = true ↔
    ∃ u, y ∈ (Function.update s.pc t q u).pendingRows
  by_cases e : y = x
  · rw [e, Function.update_self, step.mine]
    constructor
    · intro mem
      exact ⟨t, by rw [Function.update_self]; exact mem⟩
    · rintro ⟨u, mem⟩
      rw [Function.update_apply] at mem
      split at mem
      · exact mem
      · next ne => exact absurd mem (step.alone u ne)
  · rw [Function.update_of_ne e, inv.pending]
    refine exists_congr fun u => ?_
    rw [Function.update_apply]
    split
    · next is => rw [is, step.same y e]
    · exact Iff.rfl

theorem was_pending (step : RowStep s vs t q x r ws versions) {u : τ} {y : ρ}
    (hu : y ∈ (step.after.pc u).pendingRows) : y = x ∧ u = t ∨ y ≠ x ∧ y ∈ (s.pc u).pendingRows := by
  change y ∈ (Function.update s.pc t q u).pendingRows at hu
  rw [Function.update_apply] at hu
  by_cases e : y = x
  · left
    by_contra ne
    push Not at ne
    rw [if_neg (ne e), e] at hu
    exact step.alone u (ne e) hu
  · split at hu
    · next is => exact .inr ⟨e, by rw [is]; exact (step.same y e).mp hu⟩
    · exact .inr ⟨e, hu⟩

/-- The timestamps of the running transactions are still those of no version. -/
theorem started (step : RowStep s vs t q x r ws versions) (inv : HekatonInv cfg s vs) (u : τ)
    (moving : step.after.pc u ≠ .idle) : s.ts u < s.clock.horizon cfg ∧
      (∀ y, s.ts u ∉ versions y) ∧ ∀ w c, (step.after.pc w).committing = some c → s.ts u ≠ c := by
  have running : s.pc u ≠ .idle := by
    change Function.update s.pc t q u ≠ .idle at moving
    rw [Function.update_apply] at moving
    split at moving
    · next e => exact e ▸ step.busy
    · exact moving
  obtain ⟨before, new, apart⟩ := inv.started u running
  refine ⟨before, fun y mem => ?_, fun w c hc => apart w c (step.committing hc)⟩
  rcases step.added mem with mem | mem
  · exact new y mem
  · exact apart t _ mem.2 rfl

end RowStep

namespace HekatonInv

theorem setRow (inv : HekatonInv cfg s vs) {x : ρ} {r : RowHekaton} {ws : List WriteHisEntry}
    {versions : ρ → List Nat} (step : RowStep s vs t q x r ws versions) :
    HekatonInv cfg { (s.setRow x r).goto t q with versions := versions }
      (Function.update vs x ws) := by
  -- a version that is added is that of the transaction at work
  have later : Later cfg s vs step.after (Function.update vs x ws) := step.later
  constructor
  case sound => exact inv.sound
  case rows =>
    intro y
    change Versions (Function.update s.row x r y) (Function.update vs x ws y)
    rw [Function.update_apply, Function.update_apply]
    split
    · exact step.now
    · exact inv.rows y
  case suffix => exact step.suffix inv
  case sorted => exact step.sorted inv
  case spent =>
    intro y v hv
    rcases step.added hv with hv | hv
    · exact inv.spent y v hv
    · exact inv.drawn t v hv.2
  case drawn => exact fun u c hc => inv.drawn u c (step.committing hc)
  case newer =>
    intro u y c hc v hv
    obtain ⟨ne, hc⟩ := step.commits hc
    change v ∈ versions y at hv
    rw [step.off y ne] at hv
    exact inv.newer u y c hc v hv
  case pending => exact step.pending inv
  case nodup =>
    intro u
    change (Function.update s.pc t q u).pendingRows.Nodup
    rw [Function.update_apply]
    split
    · exact step.nodup
    · exact inv.nodup u
  -- the row has had no pending transaction but `t`
  case alone =>
    intro u w y hu hw
    rcases step.was_pending hu with ⟨e, rfl⟩ | ⟨ne, hu⟩
    · rcases step.was_pending hw with ⟨-, rfl⟩ | ⟨ne, -⟩
      · rfl
      · exact absurd e ne
    · rcases step.was_pending hw with ⟨e, -⟩ | ⟨-, hw⟩
      · exact absurd e ne
      · exact inv.alone u w y hu hw
  case started => exact step.started inv
  case reads =>
    refine inv.reads_later later (Function.update_self ..)
      (fun u ne => Function.update_of_ne ne ..) (fun _ _ => rfl) ?_
    intro a ha read
    exact (inv.reads t a (step.reads a ha read) read).later later rfl
      (inv.started t step.busy).1
  -- nothing is prepared while a row is written
  case prepared =>
    refine inv.prepared_later later (Function.update_self ..)
      (fun u ne => Function.update_of_ne ne ..) fun a ha => ?_
    rw [step.prepared] at ha
    cases ha
  case valid => exact fun r hr => (inv.valid r hr).later later

/-! ### Reads -/

omit [DecidableEq ρ] [DecidableEq τ] in
/-- The timestamp of a transaction is not that of a version. -/
theorem ts_new (inv : HekatonInv cfg s vs) (busy : s.pc t ≠ .idle) (x : ρ) :
    ∀ e ∈ vs x, e.begin ≠ s.ts t := by
  intro e he is
  refine (inv.started t busy).2.1 x ?_
  rw [← is]
  exact (inv.suffix x).mem (List.mem_map_of_mem he)

omit [DecidableEq ρ] [DecidableEq τ] in
/-- What has just been read is recognised. -/
theorem recognised (inv : HekatonInv cfg s vs) (busy : s.pc t ≠ .idle) {x : ρ} {e : WriteHisEntry}
    (found : (s.row x).read (s.ts t) = .ok e) : Recognised s vs t ⟨.RD, x, e.row, e.begin⟩ := by
  have mem := (inv.rows x).read_mem (inv.ts_new busy x) found
  constructor
  · intro f hf row
    rw [(inv.rows x).row_inj hf mem row]
    exact .inl rfl
  · intro u c hc behind
    -- the version that is pending is behind those that can be read
    have pending := (inv.pending x).mpr ⟨u, hc.1⟩
    exact ((inv.rows x).behind_ne ((inv.rows x).room pending) mem behind.symm).elim

omit [DecidableEq ρ] [DecidableEq τ] in
/-- The versions that the row has forgotten are older than those that it has. -/
theorem forgotten (inv : HekatonInv cfg s vs) {x : ρ} {e : WriteHisEntry} (he : e ∈ vs x) {v : Nat}
    (hv : v ∈ s.versions x) : v ≤ e.begin ∨ ∃ f ∈ vs x, f.begin = v := by
  obtain ⟨front, split⟩ := inv.suffix x
  have sorted := inv.sorted x
  rw [← split] at hv sorted
  rcases List.mem_append.mp hv with hv | hv
  · have lt := (List.pairwise_append.mp sorted).2.2 v hv e.begin (List.mem_map_of_mem he)
    exact .inl (Nat.le_of_lt lt)
  · exact .inr (List.mem_map.mp hv)

omit [DecidableEq ρ] [DecidableEq τ] in
/-- A read that `prepare_read` lets pass is valid. -/
theorem validated (inv : HekatonInv cfg s vs) {commitTs : Nat} {done rest : List (Access ρ)}
    {a : Access ρ} (pc : s.pc t = .prepare commitTs done (a :: rest)) (read : a.type = .RD)
    (met : NoneSmaller s (.next t))
    (ok : (s.row a.origRow).prepareRead (s.ts t) a.data commitTs = .RCOK) :
    Valid cfg s a.origRow a.readBegin commitTs := by
  have mine : (s.pc t).committing = some commitTs := by rw [pc]; rfl
  have known := inv.reads t a (by rw [pc]; exact List.mem_cons_self) read
  obtain ⟨e, he, found, row, begun, between, last⟩ := (inv.rows a.origRow).prepared ok
  -- the entry is the version that was read: a younger one begins after the reader
  have same : e.begin = a.readBegin := by
    rcases known.1 e he row with same | younger
    · exact same
    · exact absurd begun (Nat.not_le.mpr younger)
  rw [← same]
  refine ⟨(inv.drawn t commitTs mine).lt, fun v hv => ?_, fun u c hc => ?_⟩
  · -- versions the ring has given up are older than the one that is read
    rcases inv.forgotten he hv with old | ⟨f, hf, rfl⟩
    · exact .inl old
    · exact between f hf
  · -- what may still come: the version has not ended, or its writer or the next version is later
    rcases last with ends | none | ⟨f, hf, late⟩
    · by_cases other : u = t
      · rw [other] at hc
        rw [hc.2] at mine
        rw [Option.some.inj mine]
      · -- another writer has a greater timestamp by the condition
        simp only [NoneSmaller, pc] at met
        refine met e found ?_ ends u other hc.1 c hc.2
        rw [read]
        nofun
    · have pending := (inv.pending _).mpr ⟨u, hc.1⟩
      rw [none] at pending
      cases pending
    · have := inv.newer u _ c hc f.begin ((inv.suffix _).mem (List.mem_map_of_mem hf))
      omega

/-! ### The steps -/

omit [DecidableEq ρ] [DecidableEq τ] in
/-- The reads of a committing transaction join those that were committed. -/
theorem addReads (inv : HekatonInv cfg s vs) {rs : List (ReadVersion ρ)}
    (valid : ∀ r ∈ rs, Valid cfg s r.row r.begin r.commitTs) :
    HekatonInv cfg { s with reads := s.reads ++ rs } vs := by
  constructor
  case sound => exact inv.sound
  case rows => exact inv.rows
  case suffix => exact inv.suffix
  case sorted => exact inv.sorted
  case spent => exact inv.spent
  case drawn => exact inv.drawn
  case newer => exact inv.newer
  case pending => exact inv.pending
  case nodup => exact inv.nodup
  case alone => exact inv.alone
  case started => exact inv.started
  case reads => exact inv.reads
  case prepared => exact inv.prepared
  case valid =>
    intro r hr
    rcases List.mem_append.mp hr with hr | hr
    · exact inv.valid r hr
    · exact valid r hr

theorem getRow (inv : HekatonInv cfg s vs) {accesses : List (Access ρ)} {x : ρ} {type : AccessType}
    {minTs : WithTop Nat} (pc : s.pc t = .running accesses)
    (next : getRow gThreadCnt s t accesses x type minTs = some s') : ∃ ws, HekatonInv cfg s' ws := by
  have busy : s.pc t ≠ .idle := by
    rw [pc]
    nofun
  -- a refused access changes the program counter alone
  have refused : HekatonInv cfg (s.goto t (.refused accesses)) vs :=
    inv.goto busy (by rw [pc]; rfl) (fun _ => nofun) (fun _ => nofun) (fun _ => nofun)
  unfold Hekaton.getRow at next
  split at next
  · next read =>
    split at next
    · cases next
      exact ⟨vs, refused⟩
    · cases next
    · next e found =>
      cases next
      refine ⟨vs, inv.goto busy ?_ (fun _ => nofun) (fun a ha _ => ?_) (fun _ => nofun)⟩
      · rw [pc]
        simp [HekatonPc.pendingRows, read]
      · rcases List.mem_append.mp ha with ha | ha
        · exact inv.reads t a (by rw [pc]; exact ha) ‹_›
        · rw [List.mem_singleton.mp ha, read]
          exact inv.recognised busy found
  · next write =>
    split at next
    · cases next
      exact ⟨vs, refused⟩
    · next r data reserved =>
      cases next
      obtain ⟨free, taken, -, ws, now, suffix⟩ := (inv.rows x).prewrite reserved
      -- the row was free, so nobody has a version pending there
      have nobody (u : τ) : x ∉ (s.pc u).pendingRows := by
        intro mem
        have pending := (inv.pending x).mpr ⟨u, mem⟩
        rw [free] at pending
        cases pending
      have rows : (HekatonPc.running (accesses ++ [⟨type, x, data, 0⟩])).pendingRows =
          (s.pc t).pendingRows ++ [x] := by
        rw [pc]
        simp [HekatonPc.pendingRows, write]
      refine ⟨_, inv.setRow ⟨now, busy, fun _ => nofun, ?_, fun u _ => nobody u, fun _ => rfl,
        fun y ne => ?_, ?_, fun _ _ => rfl, .inl ⟨rfl, suffix⟩, fun a ha read => ?_, rfl⟩⟩
      · rw [rows, taken]
        simp
      · rw [rows, List.mem_append, List.mem_singleton]
        simp [ne]
      · rw [rows]
        refine List.nodup_append.mpr ⟨inv.nodup t, List.nodup_singleton x, fun y hy z hz => ?_⟩
        rw [List.mem_singleton.mp hz]
        rintro rfl
        exact nobody t hy
      · rw [pc]
        rcases List.mem_append.mp ha with ha | ha
        · exact ha
        · rw [List.mem_singleton.mp ha] at read
          exact absurd read write

theorem postProcess (inv : HekatonInv cfg s vs) {commitTs : Nat} {rc : RC} {a : Access ρ}
    {rest : List (Access ρ)} (pc : s.pc t = .post commitTs rc (a :: rest)) (write : a.type ≠ .RD) :
    ∃ ws, HekatonInv cfg (s.postProcess t commitTs rc a rest) ws := by
  have busy : s.pc t ≠ .idle := by
    rw [pc]
    nofun
  have rows : (s.pc t).pendingRows =
      a.origRow :: (HekatonPc.post commitTs rc rest).pendingRows := by
    rw [pc]
    simp [HekatonPc.pendingRows, write]
  -- the row is the first pending one, and is not pending again
  have nodup := inv.nodup t
  rw [rows, List.nodup_cons] at nodup
  have mem : a.origRow ∈ (s.pc t).pendingRows := by
    rw [rows]
    exact List.mem_cons_self
  have pending := (inv.pending a.origRow).mpr ⟨t, mem⟩
  have alone (u : τ) (ne : u ≠ t) : a.origRow ∉ (s.pc u).pendingRows :=
    fun other => ne (inv.alone u t _ other mem)
  have same (y : ρ) (ne : y ≠ a.origRow) :
      y ∈ (HekatonPc.post commitTs rc rest).pendingRows ↔ y ∈ (s.pc t).pendingRows := by
    rw [rows, List.mem_cons]
    simp [ne]
  by_cases ok : rc = .RCOK
  · subst ok
    -- all versions of the row are older than the one that is committed
    have mine : Commits s t a.origRow commitTs := ⟨mem, by rw [pc]; rfl⟩
    obtain ⟨free, ws, now, grows⟩ := (inv.rows a.origRow).postProcess_commit pending
      fun e he => inv.newer t _ commitTs mine e.begin ((inv.suffix _).mem (List.mem_map_of_mem he))
    refine ⟨_, inv.setRow ⟨now, busy, fun c hc => ?_, ?_, alone, fun mem => absurd mem nodup.1,
      same, nodup.2, fun y ne => ?_, .inr ⟨commitTs, mine, ?_, grows⟩, fun _ => nofun, rfl⟩⟩
    · rw [pc]
      exact hc
    · rw [free]
      exact iff_of_false nofun nodup.1
    · rw [if_pos rfl]
      exact Function.update_of_ne ne ..
    · rw [if_pos rfl]
      exact Function.update_self ..
  · -- a failed transaction takes its version back
    have abort : (s.row a.origRow).postProcess commitTs rc =
        (s.row a.origRow).postProcess commitTs .Abort := if_neg ok
    obtain ⟨free, ws, now, ids⟩ := (inv.rows a.origRow).postProcess_abort commitTs
    rw [← abort] at free now
    refine ⟨_, inv.setRow ⟨now, busy, fun c hc => ?_, ?_, alone, fun mem => absurd mem nodup.1,
      same, nodup.2, fun y _ => by rw [if_neg ok], .inl ⟨by rw [if_neg ok], ?_⟩, fun _ => nofun,
      rfl⟩⟩
    · rw [pc, HekatonPc.committing_post _ rest]
      exact hc
    · rw [free]
      exact iff_of_false nofun nodup.1
    · exact ids ▸ List.suffix_rfl

theorem next (inv : HekatonInv cfg s vs) (met : NoneSmaller s (.next t))
    (next : hekatonNext s t = some s') : ∃ ws, HekatonInv cfg s' ws := by
  unfold hekatonNext at next
  split at next
  · cases next
  · cases next
  · cases next
  · next commitTs done pc =>
    -- all reads have passed
    cases next
    have valid : ∀ r ∈ (done.filter (·.type = .RD)).map
        fun a => (⟨a.origRow, a.readBegin, commitTs⟩ : ReadVersion ρ),
          Valid cfg s r.row r.begin r.commitTs := by
      intro r hr
      obtain ⟨a, ha, rfl⟩ := List.mem_map.mp hr
      obtain ⟨mem, read⟩ := List.mem_filter.mp ha
      exact inv.prepared t a (by rw [pc]; exact mem) (by simpa using read) commitTs (by rw [pc]; rfl)
    have busy : s.pc t ≠ .idle := by
      rw [pc]
      nofun
    refine ⟨vs, (inv.addReads valid).goto busy ?_ (fun c hc => ?_) (fun _ => nofun) (fun _ => nofun)⟩
    · rw [pc]
      simp [HekatonPc.pendingRows]
    · rw [pc]
      exact hc
  · next commitTs done a rest pc =>
    -- an access that has passed is prepared
    have passes (valid : a.type = .RD → Valid cfg s a.origRow a.readBegin commitTs) :
        HekatonInv cfg (s.goto t (.prepare commitTs (done ++ [a]) rest)) vs := by
      refine inv.goto (by rw [pc]; nofun) (by rw [pc]; simp [HekatonPc.pendingRows])
        (fun c hc => by rw [pc]; exact hc) (fun b hb read => ?_) (fun b hb read c hc => ?_)
      · exact inv.reads t b (by rw [pc]; exact List.mem_cons_of_mem a hb) read
      · rw [← Option.some.inj hc]
        rcases List.mem_append.mp hb with hb | hb
        · exact inv.prepared t b (by rw [pc]; exact hb) read commitTs (by rw [pc]; rfl)
        · rw [List.mem_singleton.mp hb] at read ⊢
          exact valid read
    split at next
    · -- a write passes without a look at the row
      next write =>
      cases next
      refine ⟨vs, passes fun read => ?_⟩
      rw [write] at read
      cases read
    · split at next
      · next ok =>
        cases next
        exact ⟨vs, passes fun read => inv.validated pc read met ok⟩
      · cases next
        exact ⟨vs, inv.goto (by rw [pc]; nofun) (by rw [pc]; rfl) (fun _ => nofun) (fun _ => nofun)
          (fun _ => nofun)⟩
  · next commitTs rc pc =>
    cases next
    exact ⟨vs, inv.goto (by rw [pc]; nofun) (by rw [pc]; rfl) (fun _ => nofun) (fun _ => nofun)
      (fun _ => nofun)⟩
  · next commitTs rc a rest pc =>
    split at next
    · -- a read has nothing to undo
      next read =>
      cases next
      refine ⟨vs, inv.goto (by rw [pc]; nofun) ?_ (fun c hc => ?_) (fun _ => nofun)
        (fun _ => nofun)⟩
      · rw [pc]
        simp [HekatonPc.pendingRows, read]
      · rw [pc, HekatonPc.committing_post _ rest]
        exact hc
    · next write =>
      cases next
      exact inv.postProcess pc write

end HekatonInv

theorem hekatonInv_step (inv : ∃ vs, HekatonInv cfg s vs) {l : HekatonLabel ρ τ}
    (met : NoneSmaller s l) (next : (hekatonMachine cfg currTs gThreadCnt thdId ρ).step s l = some s') :
    ∃ vs, HekatonInv cfg s' vs := by
  obtain ⟨vs, inv⟩ := inv
  simp only [hekatonMachine, hekatonStep] at next
  split at next
  · -- a transaction starts
    split at next
    · next pc =>
      cases next
      exact ⟨vs, inv.start pc⟩
    · cases next
  · split at next
    · next pc => exact inv.getRow pc next
    · cases next
  · -- the draw of the commit timestamp
    split at next
    · next accesses pc =>
      cases next
      refine ⟨vs, inv.draw (by rw [pc]; nofun) (fun c => by rw [pc]; rfl)
        (fun c d hd => (Option.some.inj hd).symm) (fun c a ha => by rw [pc]; exact ha) fun _ => rfl⟩
    · next accesses pc =>
      cases next
      exact ⟨vs, inv.draw (by rw [pc]; nofun) (fun c => by rw [pc]; rfl) (fun _ _ => nofun)
        (fun _ _ => nofun) fun _ => rfl⟩
    · next accesses pc =>
      cases next
      exact ⟨vs, inv.draw (by rw [pc]; nofun) (fun c => by rw [pc]; rfl) (fun _ _ => nofun)
        (fun _ _ => nofun) fun _ => rfl⟩
    · cases next
  · exact inv.next met next

/-- In every run in which `prepare_read` does not pass over the end of a version while another
transaction is about to write there with a smaller timestamp, the reads of all committed
transactions stay valid. With batches no thread may start amid one. -/
theorem prepare_read_valid {s₀ s : HekatonState ρ τ} {as : List (HekatonLabel ρ τ)}
    (boundary : Clock.AtBoundary cfg currTs)
    (start : (hekatonMachine cfg currTs gThreadCnt thdId ρ).init s₀)
    (run : (hekatonMachine cfg currTs gThreadCnt thdId ρ).Along NoneSmaller s₀ as s) :
    ∀ r ∈ s.reads, ∀ v ∈ s.versions r.row, ¬ (r.begin < v ∧ v < r.commitTs) := by
  have inv : ∃ vs, HekatonInv cfg s vs :=
    run.preserves (fun _ _ _ inv met next => hekatonInv_step inv met next) ⟨_, hekatonInv_init boundary start⟩
  obtain ⟨vs, inv⟩ := inv
  intro r hr v hv
  rcases (inv.valid r hr).2.1 v hv with old | young <;> omega

/-! ### A version that enters late -/

/-- A writer draws its commit timestamp before the reader of the row, and both have yet to
validate. The reader finds the id of the writer where the version ends, and commits; then the
writer commits its version. -/
def overtaken : List (HekatonLabel Unit Bool) :=
  [.begin true, .getRow true () .WR ⊤, .begin false, .getRow false () .RD ⊤,
    .finish true .RCOK, .finish false .RCOK, .next false, .next false, .next true, .next true,
    .next true]

def single : TsConfig := ⟨.TS_CAS, false, 1, nofun, Nat.one_pos⟩

def thdIds : Bool → Nat
  | true => 0
  | false => 1

def start (currTs : Bool → Nat) : HekatonState Unit Bool :=
  ⟨.init currTs, fun _ => .init, fun _ => 0, fun _ => 0, fun _ => 0, fun _ => .idle, fun _ => [0], []⟩

/-- The reader commits at 4 with the version that begins at 0; the next one begins at 3. -/
theorem prepare_read_overtaken :
    ∃ s, (hekatonMachine single (fun _ => 0) 2 thdIds Unit).Along Free (start fun _ => 0)
      overtaken s ∧
      (⟨(), 0, 4⟩ : ReadVersion Unit) ∈ s.reads ∧ 3 ∈ s.versions () := by
  obtain ⟨s, run, ends⟩ := (hekatonMachine single (fun _ => 0) 2 thdIds Unit).exists_along Free
    (start fun _ => 0) overtaken (fun s => (s.reads, s.versions ())) ([⟨(), 0, 4⟩], [0, 3]) (by decide)
  obtain ⟨reads, versions⟩ := Prod.mk.inj ends
  refine ⟨s, run, ?_, ?_⟩
  · rw [reads]
    exact List.mem_cons_self
  · rw [versions]
    decide

/-- The same transactions, but the reader draws first. -/
def inOrder : List (HekatonLabel Unit Bool) :=
  [.begin true, .getRow true () .WR ⊤, .begin false, .getRow false () .RD ⊤,
    .finish false .RCOK, .finish true .RCOK, .next false, .next false, .next true, .next true,
    .next true]

/-- Batches of four; the threads start where one ends. -/
def batched : TsConfig := ⟨.TS_CAS, true, 4, fun _ => rfl, by decide⟩

/-- Here the read is valid, and so it was shown. -/
theorem prepare_read_valid_inOrder :
    ∃ s, (hekatonMachine batched (fun _ => 8) 2 thdIds Unit).Along NoneSmaller (start fun _ => 8)
        inOrder s ∧ s.reads = [⟨(), 0, 9⟩] ∧ s.versions () = [0, 13] ∧
        ∀ r ∈ s.reads, ∀ v ∈ s.versions r.row, ¬ (r.begin < v ∧ v < r.commitTs) := by
  obtain ⟨s, run, ends⟩ := (hekatonMachine batched (fun _ => 8) 2 thdIds Unit).exists_along
    NoneSmaller (start fun _ => 8) inOrder (fun s => (s.reads, s.versions ()))
    ([⟨(), 0, 9⟩], [0, 13]) (by decide)
  obtain ⟨reads, versions⟩ := Prod.mk.inj ends
  exact ⟨s, run, reads, versions, prepare_read_valid (fun _ _ => rfl) rfl run⟩

end DBx1000.Hekaton
