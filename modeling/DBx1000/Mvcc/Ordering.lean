import DBx1000.Library.Transition
import DBx1000.Mvcc.Requests
import Mathlib.Data.List.Nodup

/-!
# The timestamp order of one row

All sequences of calls of `access` on one row: reads and pre-writes with timestamps that have not
been used, and writes and rollbacks of the transaction that holds the pre-write. `used`, `holder`,
`served` and `versions` are ghosts: the timestamps of all reads and pre-writes, the transaction of
the pre-write with its timestamp and `cur_row`, the reads that were served with the timestamps of
the versions that they got, and the timestamps of the versions that became valid.

`failed` says that an assertion has failed.

## Main result

`row_mvcc_ordered`: no assertion fails, the history and the requests are in order, the end of a
pre-write wakes exactly the requests that are due, and no version comes between a read that was
served and its version.

## Proof strategy

`RowInv` is kept by each of the four requests. A read and a pre-write change the row as
`Mvcc.Reservation` says; the end of a pre-write runs through the requests that wait, where
`Mvcc.Requests` says what the loop does.
-/

namespace DBx1000.Mvcc

open Transition RowMvcc

variable {V τ : Type*}

structure RowState (V τ : Type*) where
  row : RowMvcc V τ
  used : List Nat
  holder : Option (τ × Nat × Option Nat)
  served : List (Nat × Nat)
  versions : List Nat
  failed : Bool

/-- A call of `access`; `minTs` is what `get_min_ts` returns. -/
structure AccessCall (τ : Type*) where
  txn : τ
  ts : Nat
  type : TsType
  row : Option Nat
  minTs : WithTop Nat

/-- Who may call. -/
def RowState.Permits (s : RowState V τ) (l : AccessCall τ) : Prop :=
  match l.type with
  | .R_REQ | .P_REQ => 0 < l.ts ∧ l.ts ∉ s.used
  | .W_REQ | .XP_REQ => s.holder = some (l.txn, l.ts, l.row)

instance [DecidableEq τ] (s : RowState V τ) (l : AccessCall τ) : Decidable (s.Permits l) := by
  unfold RowState.Permits
  split <;> infer_instance

/-- The pre-write among the requests that were served. -/
def nextHolder : List (Woken τ) → Option (τ × Nat × Option Nat)
  | [] => none
  | w :: ws => if w.req.type = .P_REQ then some (w.req.txn, w.req.ts, w.curRow) else nextHolder ws

/-- The ghosts behind a call that returned. -/
def RowState.record (s : RowState V τ) (l : AccessCall τ) (r : RowMvcc V τ) (reply : Reply τ) :
    RowState V τ :=
  match l.type with
  | .R_REQ =>
    { s with
      row := r
      used := l.ts :: s.used
      served := if reply.rc = .RCOK then (l.ts, reply.version) :: s.served else s.served }
  | .P_REQ =>
    { s with
      row := r
      used := l.ts :: s.used
      holder := if reply.rc = .RCOK then some (l.txn, l.ts, reply.curRow) else s.holder }
  | .W_REQ | .XP_REQ =>
    { s with
      row := r
      holder := nextHolder reply.woken
      served := (reply.woken.filter (·.req.type = .R_REQ)).map (fun w => (w.req.ts, r.latestWts)) ++
        s.served
      versions := if l.type = .W_REQ then l.ts :: s.versions else s.versions }

def rowStep [DecidableEq τ] (debug : Bool) (gThreadCnt : Nat) (s : RowState V τ)
    (l : AccessCall τ) : Option (RowState V τ) :=
  if s.failed ∨ ¬ s.Permits l then none
  else
    match s.row.access debug gThreadCnt l.minTs l.txn l.ts l.type l.row with
    | none => some { s with failed := true }
    | some (r, reply) => some (s.record l r reply)

/-- A row as `init` leaves it, with arrays of any lengths. -/
def rowMachine [DecidableEq τ] (debug : Bool) (gThreadCnt hisLen reqLen : Nat) (memory : Nat → V) :
    Machine (RowState V τ) (AccessCall τ) where
  init s := s = ⟨.init τ hisLen reqLen memory, [], none, [], [], false⟩
  step := rowStep debug gThreadCnt

/-- The order that a row keeps. -/
structure Ordered (r : RowMvcc V τ) : Prop where
  reserved : ∀ i, (r.entry i).reserved = true → (r.entry i).valid = false →
    r.existsPrewrite = true ∧ i = r.prewriteHisId
  held : r.existsPrewrite = true →
    (r.entry r.prewriteHisId).reserved = true ∧ (r.entry r.prewriteHisId).valid = false
  count : r.numVersions = r.writeHistory.countP (·.valid)
  range : ∀ e ∈ r.writeHistory, e.valid = true → r.oldestWts < e.ts ∧ e.ts ≤ r.latestWts
  prewrite : r.existsPrewrite = true → r.latestWts < r.prewriteTs ∧ r.maxServedRts < r.prewriteTs
  pending : ∀ q ∈ r.pending, r.existsPrewrite = true ∧ r.prewriteTs < q.ts

/-- The requests that the end of a pre-write should wake: the reads before the next pending
pre-write, and that pre-write. -/
def Due (r : RowMvcc V τ) (q : ReqEntry τ) : Prop :=
  q.type = .R_REQ ∧ (∀ p ∈ r.pending, p.type = .P_REQ → q.ts < p.ts) ∨
    q.type = .P_REQ ∧ ∀ p ∈ r.pending, p.type = .P_REQ → q.ts ≤ p.ts

variable {s t : RowState V τ} {r : RowMvcc V τ} {gThreadCnt ts : Nat} {minTs : WithTop Nat}
variable {debug : Bool} {l : AccessCall τ} {woken : List (Woken τ)}

/-! ### The end of a pre-write -/

theorem nextHolder_none (reads : ∀ w ∈ woken, w.req.type = .R_REQ) : nextHolder woken = none := by
  induction woken with
  | nil => rfl
  | cons w ws ih =>
    rw [nextHolder, if_neg (by rw [reads w List.mem_cons_self]; nofun)]
    exact ih fun v hv => reads v (List.mem_cons_of_mem w hv)

theorem nextHolder_some {w : Woken τ} (hw : w ∈ woken) (type : w.req.type = .P_REQ)
    (only : ∀ v ∈ woken, v.req.type = .R_REQ ∨ v = w) :
    nextHolder woken = some (w.req.txn, w.req.ts, w.curRow) := by
  induction woken with
  | nil => cases hw
  | cons v vs ih =>
    rw [nextHolder]
    split
    · next isPre =>
      rcases only v List.mem_cons_self with read | rfl
      · rw [read] at isPre
        cases isPre
      · rfl
    · next isRead =>
      rcases List.mem_cons.mp hw with rfl | hw
      · exact absurd type isRead
      · exact ih hw fun u hu => only u (List.mem_cons_of_mem v hu)

/-- The requests that `update_buffer` serves are those that are due. -/
theorem served_iff_due (younger : ∀ q ∈ r.pending, ts < q.ts)
    (distinct : (r.pending.map (·.ts)).Nodup) {q : ReqEntry τ} (hq : q ∈ r.pending) :
    Served (nextPreTs ts r.requests) q ↔ Due r q := by
  obtain ⟨first, isOne⟩ := nextPreTs_spec ts r.requests
  have first (p : ReqEntry τ) (hp : p ∈ r.pending) (type : p.type = .P_REQ) :
      nextPreTs ts r.requests ≤ p.ts := first p hp type (younger p hp)
  constructor
  · rintro (⟨read, before⟩ | at_)
    · refine .inl ⟨read, fun p hp type => ?_⟩
      exact WithTop.coe_lt_coe.mp (lt_of_lt_of_le before (first p hp type))
    · -- the next pre-write is the only request with its timestamp
      rcases isOne with none | ⟨p, hp, type, -, is⟩
      · rw [none] at at_
        cases at_
      · have same : q = p :=
          List.inj_on_of_nodup_map distinct hq hp (WithTop.coe_inj.mp (at_.trans is.symm))
        rw [same]
        refine .inr ⟨type, fun p' hp' type' => WithTop.coe_le_coe.mp ?_⟩
        rw [is]
        exact first p' hp' type'
  · rintro (⟨read, before⟩ | ⟨type, least⟩)
    · left
      refine ⟨read, ?_⟩
      rcases isOne with none | ⟨p, hp, type, -, is⟩
      · rw [none]
        exact WithTop.coe_lt_top _
      · rw [← is]
        exact WithTop.coe_lt_coe.mpr (before p hp type)
    · right
      have le := first q hq type
      rcases isOne with none | ⟨p, hp, type', -, is⟩
      · rw [none] at le
        exact absurd le (not_le.mpr (WithTop.coe_lt_top _))
      · refine le_antisymm ?_ le
        rw [← is]
        exact WithTop.coe_le_coe.mpr (least p hp type')

/-- What `update_buffer` does behind a pre-write that was older than all requests. -/
theorem updateBuffer_order (debug : Bool) (gThreadCnt : Nat) (minTs : WithTop Nat) (h : History r)
    (free : r.existsPrewrite = false) (latest : r.latestWts ≤ ts)
    (waits : ∀ q ∈ r.pending, ts < q.ts ∧ (q.type = .R_REQ ∨ q.type = .P_REQ))
    (distinct : (r.pending.map (·.ts)).Nodup) (older : r.maxServedRts < ts) :
    ∃ r' woken, r.updateBuffer debug gThreadCnt minTs ts = some (r', woken) ∧ History r' ∧
      r'.latestWts = r.latestWts ∧ r'.requests.length = r.requests.length ∧
        woken.map (·.req) = r.pending.filter (fun q => Served (nextPreTs ts r.requests) q) ∧
          r'.pending = r.pending.filter (fun q => ¬ Served (nextPreTs ts r.requests) q) ∧
            (∀ q ∈ r'.pending, r'.existsPrewrite = true ∧ r'.prewriteTs < q.ts) ∧
              (r.maxServedRts ≤ r'.maxServedRts ∧
                (∀ w ∈ woken, w.req.type = .R_REQ → w.req.ts ≤ r'.maxServedRts) ∧
                  (r'.maxServedRts = r.maxServedRts ∨ ∃ w ∈ woken, w.req.ts = r'.maxServedRts)) ∧
                (r'.existsPrewrite = true → r'.maxServedRts < r'.prewriteTs ∧
                  (∃ w ∈ woken, w.req.ts = r'.prewriteTs) ∧
                    ∃ txn, nextHolder woken = some (txn, r'.prewriteTs, r'.resRow)) ∧
                  (r'.existsPrewrite = false → nextHolder woken = none) := by
  obtain ⟨first, isOne⟩ := nextPreTs_spec ts r.requests
  have due {q : ReqEntry τ} (hq : q ∈ r.pending) :=
    served_iff_due (fun q hq => (waits q hq).1) distinct hq
  have kinds : ∀ q ∈ r.pending, WithTop.some q.ts = nextPreTs ts r.requests → q.type = .P_REQ := by
    intro q hq at_
    rcases isOne with none | ⟨p, hp, type, -, is⟩
    · rw [none] at at_
      cases at_
    · rw [List.inj_on_of_nodup_map distinct hq hp (WithTop.coe_inj.mp (at_.trans is.symm))]
      exact type
  obtain ⟨⟨qs', r', woken⟩, done⟩ :=
    wake_total debug gThreadCnt minTs h latest (fun q hq => (waits q hq).1) kinds distinct
      fun pre => by
        rw [free] at pre
        cases pre
  have woke := wake_spec h latest done
  refine ⟨{ r' with requests := qs' }, woken, ?_, ?_, woke.latestWts, woke.length, woke.served,
    woke.waits, ?_, ?_, ?_, ?_⟩
  · unfold updateBuffer
    rw [done]
    rfl
  · have := woke.history
    exact ⟨this.nonempty, this.count, this.range, this.stamps, this.oldest_le, this.reserved,
      this.pending, this.base, this.rows, this.latest, this.distinct, this.allocated⟩
  · -- whoever still waits is behind the pre-write that was served
    intro q hq
    change q ∈ qs'.filterMap id at hq
    rw [woke.waits, List.mem_filter] at hq
    obtain ⟨hq, not⟩ := hq
    have not : ¬ Served (nextPreTs ts r.requests) q := by simpa using not
    rcases woke.prewrite with ⟨-, -, -, -, -, reads⟩ | ⟨-, pre, -, -, w, hw, type, at_, stamp, -⟩
    · -- without a pre-write that is served every request is served
      exfalso
      have none : nextPreTs ts r.requests = ⊤ := by
        rcases isOne with none | ⟨p, hp, type, -, is⟩
        · exact none
        · have served : p ∈ woken.map (·.req) := by
            rw [woke.served]
            exact List.mem_filter.mpr ⟨hp, decide_eq_true (.inr is)⟩
          obtain ⟨w, hw, rfl⟩ := List.mem_map.mp served
          rw [reads w hw] at type
          cases type
      rcases (waits q hq).2 with read | type
      · exact not (.inl ⟨read, by rw [none]; exact WithTop.coe_lt_top _⟩)
      · have le := first q hq type (waits q hq).1
        rw [none] at le
        exact absurd le (not_le.mpr (WithTop.coe_lt_top _))
    · refine ⟨pre, ?_⟩
      change r'.prewriteTs < q.ts
      rw [← stamp]
      refine WithTop.coe_lt_coe.mp ?_
      rw [at_]
      refine lt_of_le_of_ne ?_ fun is => not (.inr is.symm)
      rcases (waits q hq).2 with read | type
      · -- a read that waits is not before the pre-write, for else it would have been served
        exact not_lt.mp fun before => not (.inl ⟨read, before⟩)
      · exact first q hq type (waits q hq).1
  · obtain ⟨grows, covers, from_⟩ := woke.maxServed
    refine ⟨grows, covers, ?_⟩
    rcases from_ with same | ⟨w, hw, -, is⟩
    · exact .inl same
    · exact .inr ⟨w, hw, is⟩
  · intro pre
    rcases woke.prewrite with ⟨same, -⟩ | ⟨-, -, -, -, w, hw, type, at_, stamp, row, only⟩
    · change r'.existsPrewrite = true at pre
      rw [same, free] at pre
      cases pre
    · have there : w.req ∈ r.pending := by
        have := List.mem_map_of_mem (f := (·.req)) hw
        rw [woke.served] at this
        exact (List.mem_filter.mp this).1
      refine ⟨?_, ⟨w, hw, stamp⟩, w.req.txn, ?_⟩
      · change r'.maxServedRts < r'.prewriteTs
        rw [← stamp]
        -- all reads that have been served are before the pre-write
        rcases woke.maxServed.2.2 with same | ⟨v, hv, read, is⟩
        · rw [same]
          exact Nat.lt_trans older (waits _ there).1
        · rw [← is]
          have := (woke.reads v hv read).2
          rw [← at_] at this
          exact WithTop.coe_lt_coe.mp this
      · rw [nextHolder_some hw type only, stamp, row]
        rfl
  · intro none
    -- no pre-write is served: whoever has been woken reads
    rcases woke.prewrite with ⟨-, -, -, -, -, reads⟩ | ⟨-, pre, -⟩
    · exact nextHolder_none reads
    · change r'.existsPrewrite = false at none
      rw [pre] at none
      cases none

/-! ### The invariant -/

structure RowInv (s : RowState V τ) : Prop where
  passes : s.failed = false
  history : History s.row
  entries : 0 < s.row.requests.length
  holder : s.row.existsPrewrite = true →
    ∃ txn, s.holder = some (txn, s.row.prewriteTs, s.row.resRow)
  free : s.row.existsPrewrite = false → s.holder = none
  prewrite : s.row.existsPrewrite = true →
    s.row.maxServedRts < s.row.prewriteTs ∧ s.row.prewriteTs ∈ s.used
  pending : ∀ q ∈ s.row.pending, s.row.existsPrewrite = true ∧ s.row.prewriteTs < q.ts
  requests : ∀ q ∈ s.row.pending, (q.type = .R_REQ ∨ q.type = .P_REQ) ∧ q.ts ∈ s.used
  distinct : (s.row.pending.map (·.ts)).Nodup
  latest : s.row.latestWts = 0 ∨ s.row.latestWts ∈ s.used
  maxServed : s.row.maxServedRts = 0 ∨ s.row.maxServedRts ∈ s.used
  served : ∀ p ∈ s.served, p.1 ≤ s.row.latestWts ∨ p.1 ≤ s.row.maxServedRts

namespace RowInv

theorem ordered (inv : RowInv s) : Ordered s.row where
  reserved := inv.history.reserved
  held pre := ⟨(inv.history.pending pre).2.1, (inv.history.pending pre).1⟩
  count := inv.history.count.symm
  range e he valid := by
    obtain ⟨i, rfl⟩ := exists_entry he
    exact inv.history.range i valid
  prewrite pre := ⟨(inv.history.pending pre).2.2.2, (inv.prewrite pre).1⟩
  pending := inv.pending

/-- A new row has no requests and no pre-write. -/
theorem init {hisLen reqLen : Nat} {memory : Nat → V} (his : 0 < hisLen) (req : 0 < reqLen) :
    RowInv (τ := τ) ⟨.init τ hisLen reqLen memory, [], none, [], [], false⟩ := by
  have none : (RowMvcc.init τ hisLen reqLen memory).pending = [] := by
    change (List.replicate reqLen none).filterMap id = []
    rw [List.filterMap_replicate_of_none rfl]
  constructor
  case passes => rfl
  case history => exact History.init his
  case entries =>
    change 0 < (List.replicate reqLen _).length
    rw [List.length_replicate]
    exact req
  case holder => nofun
  case free => exact fun _ => rfl
  case prewrite => nofun
  case pending =>
    rw [none]
    nofun
  case requests =>
    rw [none]
    nofun
  case distinct =>
    rw [none]
    exact .nil
  case latest => exact .inl rfl
  case maxServed => exact .inl rfl
  case served => nofun

/-- A request that has to wait joins the others. -/
theorem buffer (inv : RowInv s) {q : ReqEntry τ} {r : RowMvcc V τ}
    (done : s.row.bufferReq q = some r) (pre : s.row.existsPrewrite = true)
    (younger : s.row.prewriteTs < q.ts) (type : q.type = .R_REQ ∨ q.type = .P_REQ)
    (new : q.ts ∉ s.used) : RowInv { s with row := r, used := q.ts :: s.used } := by
  obtain ⟨requests, rfl, perm, longer⟩ := bufferReq_spec done
  have mem (p : ReqEntry τ) (hp : p ∈ requests.filterMap id) : p = q ∨ p ∈ s.row.pending :=
    List.mem_cons.mp (perm.mem_iff.mp hp)
  have h := inv.history
  constructor
  case passes => exact inv.passes
  case history =>
    exact ⟨h.nonempty, h.count, h.range, h.stamps, h.oldest_le, h.reserved, h.pending, h.base, h.rows,
      h.latest, h.distinct, h.allocated⟩
  case entries => exact Nat.lt_of_lt_of_le inv.entries longer
  case holder => exact inv.holder
  case free => exact inv.free
  case prewrite =>
    intro pre
    obtain ⟨above, used⟩ := inv.prewrite pre
    exact ⟨above, List.mem_cons_of_mem _ used⟩
  case pending =>
    intro p hp
    -- the new request is younger than the pre-write, as the others are
    rcases mem p hp with rfl | hp
    · exact ⟨pre, younger⟩
    · exact inv.pending p hp
  case requests =>
    intro p hp
    rcases mem p hp with rfl | hp
    · exact ⟨type, List.mem_cons_self⟩
    · obtain ⟨type, used⟩ := inv.requests p hp
      exact ⟨type, List.mem_cons_of_mem _ used⟩
  case distinct =>
    refine (perm.map _).nodup_iff.mpr (List.nodup_cons.mpr ⟨fun mem => ?_, inv.distinct⟩)
    obtain ⟨p, hp, is⟩ := List.mem_map.mp mem
    -- the timestamp is a new one
    have same : p.ts = q.ts := is
    rw [← same] at new
    exact new (inv.requests p hp).2
  case latest => exact inv.latest.imp_right (List.mem_cons_of_mem _)
  case maxServed => exact inv.maxServed.imp_right (List.mem_cons_of_mem _)
  case served => exact inv.served

/-- A call that changes nothing but takes a timestamp. -/
theorem use (inv : RowInv s) (ts : Nat) : RowInv { s with used := ts :: s.used } where
  passes := inv.passes
  history := inv.history
  entries := inv.entries
  holder := inv.holder
  free := inv.free
  prewrite pre := ⟨(inv.prewrite pre).1, List.mem_cons_of_mem _ (inv.prewrite pre).2⟩
  pending := inv.pending
  requests q hq := ⟨(inv.requests q hq).1, List.mem_cons_of_mem _ (inv.requests q hq).2⟩
  distinct := inv.distinct
  latest := inv.latest.imp_right (List.mem_cons_of_mem _)
  maxServed := inv.maxServed.imp_right (List.mem_cons_of_mem _)
  served := inv.served

/-- A read gets an older version. -/
theorem old (inv : RowInv s) {ts : Nat} (le : ts ≤ s.row.latestWts) (v : Nat) :
    RowInv { s with served := (ts, v) :: s.served } where
  passes := inv.passes
  history := inv.history
  entries := inv.entries
  holder := inv.holder
  free := inv.free
  prewrite := inv.prewrite
  pending := inv.pending
  requests := inv.requests
  distinct := inv.distinct
  latest := inv.latest
  maxServed := inv.maxServed
  served := by
    intro p hp
    rcases List.mem_cons.mp hp with rfl | hp
    · exact .inl le
    · exact inv.served p hp

/-- A read gets the latest version; a pre-write that there is has a greater timestamp. -/
theorem young (inv : RowInv s) {ts : Nat} (used : ts ∈ s.used) (v : Nat)
    (before : s.row.existsPrewrite = true → ts < s.row.prewriteTs) :
    RowInv { s with row := s.row.serve ts, served := (ts, v) :: s.served } where
  passes := inv.passes
  history := inv.history.serve ts
  entries := inv.entries
  holder := inv.holder
  free := inv.free
  prewrite := by
    intro pre
    obtain ⟨above, used⟩ := inv.prewrite pre
    refine ⟨?_, used⟩
    -- the reader is older than the pre-write
    have := before pre
    change (if _ then _ else _) < s.row.prewriteTs
    split
    · exact this
    · exact above
  pending := inv.pending
  requests := inv.requests
  distinct := inv.distinct
  latest := inv.latest
  maxServed := by
    change (if ts > s.row.maxServedRts then _ else _) = 0 ∨ (if ts > s.row.maxServedRts then _ else _) ∈ s.used
    split
    · exact .inr used
    · exact inv.maxServed
  served := by
    intro p hp
    change p.1 ≤ s.row.latestWts ∨ p.1 ≤ if ts > s.row.maxServedRts then ts else s.row.maxServedRts
    rcases List.mem_cons.mp hp with rfl | hp
    · right
      split
      · exact Nat.le_refl _
      · next le => exact Nat.not_lt.mp le
    · rcases inv.served p hp with le | le
      · exact .inl le
      · right
        split
        · next more => exact Nat.le_of_lt (Nat.lt_of_le_of_lt le more)
        · exact le

/-- A pre-write is served at once. -/
theorem granted (debug : Bool) (gThreadCnt : Nat) (minTs : WithTop Nat) (inv : RowInv s) (txn : τ)
    (free : s.row.existsPrewrite = false) {ts : Nat}
    (used : ts ∈ s.used) (newer : s.row.latestWts < ts) (above : s.row.maxServedRts < ts) :
    ∃ r, s.row.prewrite debug gThreadCnt minTs ts = some r ∧
      RowInv { s with row := r, holder := some (txn, ts, r.resRow) } := by
  obtain ⟨q, b, a, done, history, keeps, pre, stamp, row, -, -⟩ :=
    inv.history.prewrite debug gThreadCnt minTs free newer
  -- requests wait for a pre-write, and there is none
  have none : s.row.pending = [] := by
    refine List.eq_nil_iff_forall_not_mem.mpr fun q hq => ?_
    have := (inv.pending q hq).1
    rw [free] at this
    cases this
  have none' : q.pending = [] := by
    unfold RowMvcc.pending
    rw [keeps.requests]
    exact none
  refine ⟨_, done, ?_⟩
  constructor
  case passes => exact inv.passes
  case history => exact history.setMemory _
  case entries =>
    change 0 < q.requests.length
    rw [keeps.requests]
    exact inv.entries
  case holder =>
    intro _
    refine ⟨txn, ?_⟩
    change some (txn, ts, q.resRow) = some (txn, q.prewriteTs, q.resRow)
    rw [stamp]
  case free =>
    intro no
    change q.existsPrewrite = false at no
    rw [pre] at no
    cases no
  case prewrite =>
    intro _
    change q.maxServedRts < q.prewriteTs ∧ q.prewriteTs ∈ s.used
    rw [stamp, keeps.maxServedRts]
    exact ⟨above, used⟩
  case pending =>
    intro p hp
    change p ∈ q.pending at hp
    rw [none'] at hp
    cases hp
  case requests =>
    intro p hp
    change p ∈ q.pending at hp
    rw [none'] at hp
    cases hp
  case distinct =>
    change (q.pending.map _).Nodup
    rw [none']
    exact .nil
  case latest =>
    change q.latestWts = 0 ∨ q.latestWts ∈ s.used
    rw [keeps.latestWts]
    exact inv.latest
  case maxServed =>
    change q.maxServedRts = 0 ∨ q.maxServedRts ∈ s.used
    rw [keeps.maxServedRts]
    exact inv.maxServed
  case served =>
    intro p hp
    change p.1 ≤ q.latestWts ∨ p.1 ≤ q.maxServedRts
    rw [keeps.latestWts, keeps.maxServedRts]
    exact inv.served p hp

/-- The pre-write has ended, by a commit or a rollback, and `update_buffer` follows. -/
theorem finish (debug : Bool) (gThreadCnt : Nat) (minTs : WithTop Nat) (inv : RowInv s)
    (pre : s.row.existsPrewrite = true) {p : RowMvcc V τ}
    (history : History p) (free : p.existsPrewrite = false)
    (requests : p.requests = s.row.requests) (same : p.maxServedRts = s.row.maxServedRts)
    (newer : s.row.latestWts ≤ p.latestWts) (latest : p.latestWts ≤ s.row.prewriteTs)
    (used : p.latestWts = 0 ∨ p.latestWts ∈ s.used) :
    ∃ r woken, p.updateBuffer debug gThreadCnt minTs s.row.prewriteTs = some (r, woken) ∧
      ((∀ q, (∃ w ∈ woken, w.req = q) ↔ q ∈ s.row.pending ∧ Due s.row q) ∧
        ∀ q, q ∈ r.pending ↔ q ∈ s.row.pending ∧ ¬ Due s.row q) ∧
        ∀ versions, RowInv { s with
          row := r
          holder := nextHolder woken
          served := (woken.filter (·.req.type = .R_REQ)).map (fun w => (w.req.ts, r.latestWts)) ++
            s.served
          versions := versions } := by
  have pending : p.pending = s.row.pending := by
    unfold RowMvcc.pending
    rw [requests]
  have waits : ∀ q ∈ p.pending, s.row.prewriteTs < q.ts ∧ (q.type = .R_REQ ∨ q.type = .P_REQ) := by
    rw [pending]
    exact fun q hq => ⟨(inv.pending q hq).2, (inv.requests q hq).1⟩
  have distinct : (p.pending.map (·.ts)).Nodup := by
    rw [pending]
    exact inv.distinct
  obtain ⟨r, woken, done, history', latest', len, served, waits', younger, stamps, holds, frees⟩ :=
    updateBuffer_order debug gThreadCnt minTs history free
      latest waits distinct (by rw [same]; exact (inv.prewrite pre).1)
  have due {q : ReqEntry τ} (hq : q ∈ s.row.pending) :
      Served (nextPreTs s.row.prewriteTs p.requests) q ↔ Due s.row q := by
    have := served_iff_due (fun q hq => (waits q hq).1) distinct (by rw [pending]; exact hq)
    unfold Due at this ⊢
    rw [pending] at this
    exact this
  -- who is woken has waited
  have of_woken (w : Woken τ) (hw : w ∈ woken) : w.req ∈ s.row.pending := by
    have := List.mem_map_of_mem (f := (·.req)) hw
    rw [served, List.mem_filter, pending] at this
    exact this.1
  refine ⟨r, woken, done, ⟨fun q => ?_, fun q => ?_⟩, fun versions => ?_⟩
  · have : (∃ w ∈ woken, w.req = q) ↔ q ∈ woken.map (·.req) := List.mem_map.symm
    rw [this, served, List.mem_filter, pending]
    exact and_congr_right fun hq => decide_eq_true_iff.trans (due hq)
  · rw [waits', List.mem_filter, pending]
    exact and_congr_right fun hq => decide_eq_true_iff.trans (not_congr (due hq))
  · have sub : ∀ q ∈ r.pending, q ∈ s.row.pending := by
      intro q hq
      rw [waits', List.mem_filter, pending] at hq
      exact hq.1
    constructor
    case passes => exact inv.passes
    case history => exact history'
    case entries =>
      change 0 < r.requests.length
      rw [len, requests]
      exact inv.entries
    case holder => exact fun pre => (holds pre).2.2
    case free => exact frees
    case prewrite =>
      intro pre
      obtain ⟨above, ⟨w, hw, is⟩, -⟩ := holds pre
      refine ⟨above, ?_⟩
      change r.prewriteTs ∈ s.used
      -- the timestamps that are served were drawn before
      rw [← is]
      exact (inv.requests _ (of_woken w hw)).2
    case pending => exact younger
    case requests => exact fun q hq => inv.requests q (sub q hq)
    case distinct =>
      change (r.pending.map _).Nodup
      rw [waits', pending]
      exact inv.distinct.sublist (List.filter_sublist.map _)
    case latest =>
      change r.latestWts = 0 ∨ r.latestWts ∈ s.used
      rw [latest']
      exact used
    case maxServed =>
      change r.maxServedRts = 0 ∨ r.maxServedRts ∈ s.used
      rcases stamps.2.2 with is | ⟨w, hw, is⟩
      · rw [is, same]
        exact inv.maxServed
      · rw [← is]
        exact .inr (inv.requests _ (of_woken w hw)).2
    case served =>
      intro e he
      change e.1 ≤ r.latestWts ∨ e.1 ≤ r.maxServedRts
      rcases List.mem_append.mp he with he | he
      · -- a read that is served now, or one of before
        obtain ⟨w, hw, rfl⟩ := List.mem_map.mp he
        obtain ⟨hw, read⟩ := List.mem_filter.mp hw
        exact .inr (stamps.2.1 w hw (by simpa using read))
      · rcases inv.served e he with le | le
        · left
          rw [latest']
          exact Nat.le_trans le newer
        · right
          rw [← same] at le
          exact Nat.le_trans le stamps.1

/-- A call that may be made returns, and the row keeps its order. -/
theorem access (debug : Bool) (gThreadCnt : Nat) (inv : RowInv s) (permits : s.Permits l) :
    ∃ r reply, s.row.access debug gThreadCnt l.minTs l.txn l.ts l.type l.row = some (r, reply) ∧
      RowInv (s.record l r reply) ∧
        (l.type = .W_REQ ∨ l.type = .XP_REQ →
          (∀ q, (∃ w ∈ reply.woken, w.req = q) ↔ q ∈ s.row.pending ∧ Due s.row q) ∧
            ∀ q, q ∈ r.pending ↔ q ∈ s.row.pending ∧ ¬ Due s.row q) := by
  -- the assertions at the beginning are about the requests that wait
  have checked : ¬ (debug = true ∧ ¬ ∀ q ∈ s.row.requests.filterMap id,
      q.ts > s.row.latestWts ∧ (s.row.existsPrewrite = true → s.row.prewriteTs < q.ts)) := by
    refine fun fails => fails.2 fun q hq => ?_
    obtain ⟨pre, younger⟩ := inv.pending q hq
    exact ⟨Nat.lt_trans (inv.history.pending pre).2.2.2 younger, fun _ => younger⟩
  unfold RowMvcc.access
  rw [if_neg checked]
  unfold RowState.Permits at permits
  unfold RowState.record
  cases type : l.type with
  | R_REQ =>
    rw [type] at permits
    obtain ⟨-, new⟩ := permits
    dsimp only
    unfold readReq
    split
    · exact ⟨_, _, rfl, inv.use l.ts, nofun⟩
    · split
      · split
        · next wait =>
          obtain ⟨r, done⟩ := bufferReq_total (q := ⟨.R_REQ, l.ts, l.txn⟩) inv.entries
          rw [done]
          exact ⟨_, _, rfl, inv.buffer done wait.1 wait.2 (.inl rfl) new, nofun⟩
        · next now =>
          refine ⟨_, _, rfl, (inv.use l.ts).young List.mem_cons_self _ fun pre => ?_, nofun⟩
          -- the pre-write is not older, and it is another call
          refine Nat.lt_of_le_of_ne (Nat.not_lt.mp fun lt => now ⟨pre, lt⟩) fun is => new ?_
          rw [is]
          exact (inv.prewrite pre).2
      · next le =>
        have le := Nat.not_lt.mp le
        split
        · exact ⟨_, _, rfl, (inv.use l.ts).old le _, nofun⟩
        · exact ⟨_, _, rfl, (inv.use l.ts).old le _, nofun⟩
  | P_REQ =>
    rw [type] at permits
    -- a pre-write is refused, waits for another one, or reserves a version
    obtain ⟨pos, new⟩ := permits
    dsimp only
    unfold prewriteReq
    split
    · exact ⟨_, _, rfl, inv.use l.ts, nofun⟩
    · next passes =>
      push Not at passes
      obtain ⟨notOld, notRead, notAhead⟩ := passes
      split
      · next pre =>
        obtain ⟨r, done⟩ := bufferReq_total (q := ⟨.P_REQ, l.ts, l.txn⟩) inv.entries
        have younger : s.row.prewriteTs < l.ts := by
          refine Nat.lt_of_le_of_ne (notAhead pre) fun is => new ?_
          rw [← is]
          exact (inv.prewrite pre).2
        rw [done]
        exact ⟨_, _, rfl, inv.buffer done pre younger (.inr rfl) new, nofun⟩
      · next free =>
        have newer : s.row.latestWts < l.ts := by
          refine Nat.lt_of_le_of_ne notOld fun is => ?_
          rcases inv.latest with zero | used
          · omega
          · exact new (is ▸ used)
        have above : s.row.maxServedRts < l.ts := by
          refine Nat.lt_of_le_of_ne notRead fun is => ?_
          rcases inv.maxServed with zero | used
          · omega
          · exact new (is ▸ used)
        obtain ⟨r, done, after⟩ := (inv.use l.ts).granted debug gThreadCnt l.minTs
          l.txn (by simpa using free) List.mem_cons_self newer above
        rw [done]
        exact ⟨_, _, rfl, after, nofun⟩
  | W_REQ =>
    rw [type] at permits
    -- a write comes from the holder of the pre-write
    have pre : s.row.existsPrewrite = true := by
      by_contra no
      have := inv.free (by simpa using no)
      rw [permits] at this
      cases this
    obtain ⟨txn, held⟩ := inv.holder pre
    rw [held] at permits
    obtain ⟨ts, row⟩ := Prod.mk.inj (Prod.mk.inj (Option.some.inj permits)).2
    have newer := (inv.history.pending pre).2.2.2
    dsimp only
    rw [← ts, ← row, if_pos ⟨newer, rfl⟩]
    obtain ⟨r, woken, done, wakes, after⟩ := inv.finish debug gThreadCnt l.minTs
      (p := s.row.commit s.row.prewriteTs s.row.resRow) pre
      (inv.history.commit pre newer).1 rfl rfl rfl (Nat.le_of_lt newer) (Nat.le_refl _)
      (.inr (inv.prewrite pre).2)
    rw [done]
    exact ⟨_, _, rfl, after _, fun _ => wakes⟩
  | XP_REQ =>
    rw [type] at permits
    -- so does a rollback
    have pre : s.row.existsPrewrite = true := by
      by_contra no
      have := inv.free (by simpa using no)
      rw [permits] at this
      cases this
    obtain ⟨txn, held⟩ := inv.holder pre
    rw [held] at permits
    obtain ⟨ts, row⟩ := Prod.mk.inj (Prod.mk.inj (Option.some.inj permits)).2
    dsimp only
    rw [← ts, ← row, if_pos rfl]
    obtain ⟨r, woken, done, wakes, after⟩ := inv.finish debug gThreadCnt l.minTs
      (p := s.row.rollback) pre (inv.history.rollback pre).1 rfl rfl rfl
      (Nat.le_refl _) (Nat.le_of_lt (inv.history.pending pre).2.2.2) inv.latest
    rw [done]
    exact ⟨_, _, rfl, after _, fun _ => wakes⟩

end RowInv

/-! ### Runs -/

/-- The reads that were served stay served, and versions that are added are newer than they. -/
structure Extends (s t : RowState V τ) : Prop where
  served : ∀ p ∈ s.served, p ∈ t.served
  versions : ∀ v ∈ s.versions, v ∈ t.versions
  newer : ∀ p ∈ s.served, ∀ v ∈ t.versions, v ∉ s.versions → p.1 < v

theorem Extends.refl (s : RowState V τ) : Extends s s :=
  ⟨fun _ => id, fun _ => id, fun _ _ _ hv not => absurd hv not⟩

theorem Extends.trans {u : RowState V τ} (h : Extends s t) (h' : Extends t u) : Extends s u where
  served p hp := h'.served p (h.served p hp)
  versions v hv := h'.versions v (h.versions v hv)
  newer p hp v hv new := by
    by_cases there : v ∈ t.versions
    · exact h.newer p hp v there new
    · exact h'.newer p (h.served p hp) v hv there

/-- Only the transaction of the pre-write adds a version. -/
theorem RowInv.extends_ (inv : RowInv s) (permits : s.Permits l) {reply : Reply τ} :
    Extends s (s.record l r reply) := by
  have same {t : RowState V τ} (served : ∀ p ∈ s.served, p ∈ t.served)
      (versions : t.versions = s.versions) : Extends s t :=
    ⟨served, fun v hv => by rw [versions]; exact hv, fun p _ v hv new => by
      rw [versions] at hv
      exact absurd hv new⟩
  unfold RowState.Permits at permits
  unfold RowState.record
  cases type : l.type with
  | R_REQ =>
    refine same (fun p hp => ?_) rfl
    dsimp only
    split
    · exact List.mem_cons_of_mem _ hp
    · exact hp
  | P_REQ => exact same (fun _ => id) rfl
  | XP_REQ => exact same (fun p hp => List.mem_append_right _ hp) rfl
  | W_REQ =>
    rw [type] at permits
    have pre : s.row.existsPrewrite = true := by
      by_contra no
      have := inv.free (by simpa using no)
      rw [permits] at this
      cases this
    obtain ⟨txn, held⟩ := inv.holder pre
    rw [held] at permits
    obtain ⟨ts, -⟩ := Prod.mk.inj (Prod.mk.inj (Option.some.inj permits)).2
    refine ⟨fun p hp => List.mem_append_right _ hp, fun v hv => List.mem_cons_of_mem _ hv,
      fun p hp v hv new => ?_⟩
    rcases List.mem_cons.mp hv with rfl | hv
    · rw [← ts]
      rcases inv.served p hp with le | le
      · exact Nat.lt_of_le_of_lt le (inv.history.pending pre).2.2.2
      · exact Nat.lt_of_le_of_lt le (inv.prewrite pre).1
    · exact absurd hv new

variable [DecidableEq τ] {hisLen reqLen : Nat} {memory : Nat → V}

theorem rowStep_spec (inv : RowInv s)
    (next : (rowMachine debug gThreadCnt hisLen reqLen memory).step s l = some t) :
    RowInv t ∧ Extends s t := by
  simp only [rowMachine, rowStep] at next
  split at next
  · cases next
  · next may =>
    push Not at may
    obtain ⟨r, reply, done, after, -⟩ :=
      inv.access debug gThreadCnt may.2
    rw [done] at next
    cases next
    exact ⟨after, inv.extends_ may.2⟩

/-- A row keeps its timestamp order: in every state that calls lead to, no assertion has failed, the
history and the requests are in order, the end of a pre-write wakes the requests that are due and
no others, and no version enters between a read that was served and the version that it got. -/
theorem row_mvcc_ordered (his : 0 < hisLen) (req : 0 < reqLen)
    (reached : (rowMachine debug gThreadCnt hisLen reqLen memory).Reachable Free s) :
    s.failed = false ∧ Ordered s.row ∧
      (∀ l, s.Permits l → ∃ r reply,
        s.row.access debug gThreadCnt l.minTs l.txn l.ts l.type l.row = some (r, reply) ∧
          (l.type = .W_REQ ∨ l.type = .XP_REQ →
            (∀ q, (∃ w ∈ reply.woken, w.req = q) ↔ q ∈ s.row.pending ∧ Due s.row q) ∧
              ∀ q, q ∈ r.pending ↔ q ∈ s.row.pending ∧ ¬ Due s.row q)) ∧
        ∀ as t, (rowMachine debug gThreadCnt hisLen reqLen memory).Along Free s as t →
          ∀ p ∈ s.served, ∀ v ∈ t.versions, v ∉ s.versions → ¬ (p.2 < v ∧ v < p.1) := by
  have inv : RowInv s := reached.invariant (I := RowInv)
    (fun _ start => by
      rw [start]
      exact RowInv.init his req)
    fun _ _ _ inv _ next => (rowStep_spec inv next).1
  refine ⟨inv.passes, inv.ordered, fun l permits => ?_, fun as t run p hp v hv new => ?_⟩
  · obtain ⟨r, reply, done, -, wakes⟩ := inv.access debug gThreadCnt permits
    exact ⟨r, reply, done, wakes⟩
  · have := (run.relates Extends.refl (fun _ _ _ => Extends.trans)
      (fun _ _ _ inv _ next => (rowStep_spec inv next).1)
      (fun _ _ _ inv _ next => (rowStep_spec inv next).2) inv).newer p hp v hv new
    omega

/-- A pre-write, a read and a pre-write that wait for it, and the write that wakes both. -/
def wakeUp : List (AccessCall Nat) :=
  [⟨0, 2, .P_REQ, none, WithTop.some 0⟩, ⟨1, 3, .R_REQ, none, WithTop.some 0⟩,
    ⟨2, 4, .P_REQ, none, WithTop.some 0⟩, ⟨0, 2, .W_REQ, some 1, WithTop.some 0⟩,
    ⟨2, 4, .W_REQ, some 2, WithTop.some 0⟩]

/-- The read gets the version of the first write, and the arrays have doubled. -/
theorem row_mvcc_ordered_wakeUp :
    ∃ s, (rowMachine (V := Nat) (τ := Nat) true 2 1 1 fun _ => 0).Reachable Free s ∧
      s.served = [(3, 2)] ∧ s.versions = [4, 2] ∧ Ordered s.row := by
  obtain ⟨s, run, view⟩ := (rowMachine (V := Nat) (τ := Nat) true 2 1 1 fun _ => 0).exists_along Free
    ⟨.init Nat 1 1 fun _ => 0, [], none, [], [], false⟩ wakeUp (fun s => (s.served, s.versions))
    ([(3, 2)], [4, 2]) (by decide)
  obtain ⟨served, versions⟩ := Prod.mk.inj view
  have reached : (rowMachine (V := Nat) (τ := Nat) true 2 1 1 fun _ => 0).Reachable Free s :=
    ⟨_, _, rfl, run⟩
  exact ⟨s, reached, served, versions,
    (row_mvcc_ordered Nat.one_pos Nat.one_pos reached).2.1⟩

end DBx1000.Mvcc
