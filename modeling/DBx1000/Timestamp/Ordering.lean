import DBx1000.Library.Transition
import DBx1000.Timestamp.Update
import Mathlib.Logic.Function.Basic

/-!
# The order of reads and writes of one row

All sequences of calls of `access` on one row. A thread runs transactions one after another, each
with a greater timestamp; a transaction reads, and makes pre-writes that it ends with a write or a
rollback each. A thread whose read waits does nothing until it is served. `log` has the reads and
writes in the order in which they happen to the row; `failed` says that an assertion has failed.

## Proof strategy

`Sound` holds the queues of the row against what the threads have asked and not ended yet. It is
kept by each of the calls; the reads and writes that a call makes are acts of the register of
`Timestamp.Update`, which keeps the order.
-/

namespace DBx1000.Timestamp

open Transition

variable {V τ : Type}

/-- `pending` counts the pre-writes whose write or rollback is still to come; `waiting` is
`!ts_ready`. -/
structure TxnState where
  ts : Nat
  pending : Nat
  waiting : Bool
  deriving DecidableEq

structure TsState (V τ : Type) where
  row : RowTs V τ
  txn : τ → TxnState
  log : List (Act V τ)
  failed : Bool

inductive Call (V τ : Type)
  | begin (t : τ) (ts : Nat)
  | read (t : τ)
  | prewrite (t : τ)
  | write (t : τ) (row : V)
  | rollback (t : τ)

variable [DecidableEq τ]

/-- The act serves a read of the transaction. -/
def Act.serves (t : τ) : Act V τ → Bool
  | .read u _ _ => decide (u = t)
  | .write _ _ => false

/-- `ts_ready` is set for the reads that are served. -/
def wake (acts : List (Act V τ)) (txn : τ → TxnState) : τ → TxnState := fun t =>
  if acts.any (Act.serves t) then { txn t with waiting := false } else txn t

namespace TsState

/-- A call of `access`, and what the caller does with its result. -/
def access (s : TsState V τ) (t : τ) (type : TsType) (row : Option V)
    (next : RC → TxnState → TxnState) : TsState V τ :=
  match s.row.access t (s.txn t).ts type row with
  | none => { s with failed := true }
  | some (rc, r, acts) =>
    { s with
      row := r
      txn := wake acts (Function.update s.txn t (next rc (s.txn t)))
      log := s.log ++ acts }

end TsState

def tsStep (s : TsState V τ) (l : Call V τ) : Option (TsState V τ) :=
  if s.failed then none
  else match l with
  | .begin t ts =>
    if (s.txn t).pending = 0 ∧ (s.txn t).waiting = false ∧ (s.txn t).ts < ts then
      some { s with txn := Function.update s.txn t ⟨ts, 0, false⟩ }
    else none
  | .read t =>
    if (s.txn t).waiting then none
    else some (s.access t .R_REQ none fun rc x => { x with waiting := rc = .WAIT })
  | .prewrite t =>
    if (s.txn t).waiting then none
    else some (s.access t .P_REQ none fun rc x =>
      if rc = .RCOK then { x with pending := x.pending + 1 } else x)
  | .write t row =>
    if (s.txn t).waiting ∨ (s.txn t).pending = 0 then none
    else some (s.access t .W_REQ (some row) fun _ x => { x with pending := x.pending - 1 })
  | .rollback t =>
    if (s.txn t).waiting ∨ (s.txn t).pending = 0 then none
    else some (s.access t .XP_REQ none fun _ x => { x with pending := x.pending - 1 })

/-- A row as `init` leaves it. -/
def tsMachine (V τ : Type) [DecidableEq τ] (row : V) : Machine (TsState V τ) (Call V τ) where
  init s := s = ⟨.init τ row, fun _ => ⟨0, 0, false⟩, [], false⟩
  step := tsStep

/-! ### What every call keeps -/

namespace TsState

/-- `row` is the value of the row at the beginning. -/
structure Sound (row : V) (s : TsState V τ) : Prop where
  settled : s.row.Settled
  minPts : s.row.minPts = calMin s.row.prereq
  owned : s.row.Owned (fun t => (s.txn t).pending) fun t => (s.txn t).ts
  waiters : ∀ t, (s.txn t).waiting = true ↔ ∃ req ∈ s.row.readreq, req.txn = t
  stamps : ∀ req ∈ s.row.readreq, req.ts = (s.txn req.txn).ts
  runs : Register.Runs ⟨row, 0, 0⟩ s.log s.row.register
  clean : s.failed = false

end TsState

variable {s s' : TsState V τ} {row : V} {t : τ} {r : RowTs V τ} {acts : List (Act V τ)}
  {x : TxnState}

theorem any_serves : acts.any (Act.serves t) = true ↔ ∃ n v, Act.read t n v ∈ acts := by
  rw [List.any_eq_true]
  constructor
  · rintro ⟨a, ha, serves⟩
    cases a with
    | read u n v =>
      obtain rfl : u = t := of_decide_eq_true serves
      exact ⟨n, v, ha⟩
    | write n v => cases serves
  · rintro ⟨n, v, ha⟩
    exact ⟨_, ha, decide_eq_true rfl⟩

theorem wake_ts (acts : List (Act V τ)) (txn : τ → TxnState) (t : τ) :
    (wake acts txn t).ts = (txn t).ts := by
  unfold wake
  split <;> rfl

theorem wake_pending (acts : List (Act V τ)) (txn : τ → TxnState) (t : τ) :
    (wake acts txn t).pending = (txn t).pending := by
  unfold wake
  split <;> rfl

/-- A call that serves reads from the queue. -/
theorem TsState.Sound.served (h : s.Sound row) (acts₀ : List (Act V τ)) (r₁ : RowTs V τ)
    (idle : (s.txn t).waiting = false) (same : x.ts = (s.txn t).ts) (ready : x.waiting = false)
    (first : s.row.register.Runs acts₀ r₁.register) (silent : ∀ u, acts₀.any (Act.serves u) = false)
    (updated : r₁.Updated (fun u => (Function.update s.txn t x u).pending)
      (fun u => (s.txn u).ts) r acts) (queue : r₁.readreq = s.row.readreq) :
    TsState.Sound row { s with
      row := r
      txn := wake (acts₀ ++ acts) (Function.update s.txn t x)
      log := s.log ++ (acts₀ ++ acts) } := by
  -- served are the readers that waited up to the new minimum of the pre-writes
  have served (u : τ) : (acts₀ ++ acts).any (Act.serves u) = true ↔
      ∃ req ∈ s.row.readreq, req.txn = u ∧ (req.ts : WithTop Nat) ≤ r.minPts := by
    rw [List.any_append, silent, Bool.false_or, any_serves]
    constructor
    · rintro ⟨n, v, mem⟩
      obtain ⟨req, hreq, txn, rfl, le⟩ := (updated.served u n).mp ⟨v, mem⟩
      exact ⟨req, queue ▸ hreq, txn, le⟩
    · rintro ⟨req, hreq, txn, le⟩
      obtain ⟨v, mem⟩ := (updated.served u req.ts).mpr ⟨req, queue ▸ hreq, txn, rfl, le⟩
      exact ⟨req.ts, v, mem⟩
  have left {req : TsReqEntry V τ} : req ∈ r.readreq ↔
      req ∈ s.row.readreq ∧ r.minPts < (req.ts : WithTop Nat) := by
    rw [updated.readreq, queue, List.mem_filter, decide_eq_true_eq]
  have stamp (u : τ) : (wake (acts₀ ++ acts) (Function.update s.txn t x) u).ts = (s.txn u).ts := by
    rw [wake_ts]
    by_cases eq : u = t
    · rw [eq, Function.update_self, same]
    · rw [Function.update_of_ne eq]
  constructor
  case settled => exact updated.settled
  case minPts => exact updated.minPts
  case owned =>
    simp only [wake_pending, stamp]
    exact updated.owned
  -- whoever is served does not wait any more, and all others are where they were
  case waiters =>
    intro u
    change (wake _ _ u).waiting = true ↔ _
    rw [wake]
    split
    · next served' =>
      obtain ⟨req, hreq, txn, le⟩ := (served u).mp served'
      constructor
      · intro never
        cases never
      · rintro ⟨req', hreq', txn'⟩
        obtain ⟨mem, lt⟩ := left.mp hreq'
        rw [h.stamps req' mem, txn', ← txn, ← h.stamps req hreq] at lt
        exact absurd le (not_le.mpr lt)
    · next waits =>
      have stays : (∃ req ∈ r.readreq, req.txn = u) ↔ ∃ req ∈ s.row.readreq, req.txn = u := by
        constructor
        · rintro ⟨req, hreq, txn⟩
          exact ⟨req, (left.mp hreq).1, txn⟩
        · rintro ⟨req, hreq, txn⟩
          refine ⟨req, left.mpr ⟨hreq, not_le.mp fun le => ?_⟩, txn⟩
          exact waits ((served u).mpr ⟨req, hreq, txn, le⟩)
      rw [stays, ← h.waiters u]
      by_cases eq : u = t
      · rw [eq, Function.update_self, ready, idle]
      · rw [Function.update_of_ne eq]
  case stamps =>
    intro req hreq
    rw [stamp]
    exact h.stamps req (left.mp hreq).1
  case runs => exact h.runs.append (first.append updated.runs)
  case clean => exact h.clean

/-- A transaction that does not wait is not woken. -/
theorem wake_self {txn : τ → TxnState} {n : Nat} {v : V} (idle : (txn t).waiting = false) :
    wake [.read t n v] txn = txn := by
  funext u
  unfold wake
  split
  · next serves =>
    obtain rfl : t = u := by simpa [Act.serves] using serves
    rw [← idle]
  · rfl

theorem entriesOf_cons (t : τ) (row : Option V) (n : Nat) (queue : List (TsReqEntry V τ)) :
    entriesOf t (⟨t, row, n⟩ :: queue) = ⟨t, row, n⟩ :: entriesOf t queue :=
  List.filter_cons_of_pos (decide_eq_true rfl)

/-- Only the requests of one transaction change. -/
theorem RowTs.Owned.change {r' : RowTs V τ} {pending ts pending' ts' : τ → Nat}
    (owned : r.Owned pending ts) (t : τ)
    (others : ∀ u ≠ t, entriesOf u r'.prereq = entriesOf u r.prereq ∧
      entriesOf u r'.writereq = entriesOf u r.writereq ∧ pending' u = pending u ∧ ts' u = ts u)
    (count : (entriesOf t r'.prereq).length = (entriesOf t r'.writereq).length + pending' t)
    (oldest : ∀ p ∈ (entriesOf t r'.prereq).getLast?,
      p.ts ≤ ts' t ∧ ∀ req ∈ entriesOf t r'.writereq, p.ts ≤ req.ts) : r'.Owned pending' ts' where
  count u := by
    by_cases eq : u = t
    · exact eq ▸ count
    · obtain ⟨pre, write, pending, -⟩ := others u eq
      rw [pre, write, pending]
      exact owned.count u
  oldest u := by
    by_cases eq : u = t
    · exact eq ▸ oldest
    · obtain ⟨pre, write, -, ts⟩ := others u eq
      rw [pre, write, ts]
      exact owned.oldest u

namespace TsState.Sound

/-- A call that serves nothing, for a transaction that does not wait. -/
theorem quiet (h : s.Sound row) (settled : r.Settled) (minPts : r.minPts = calMin r.prereq)
    (owned : r.Owned (fun u => (Function.update s.txn t x u).pending)
      fun u => (Function.update s.txn t x u).ts)
    (register : r.register = s.row.register)
    (waiters : ∀ u, (Function.update s.txn t x u).waiting = true ↔ ∃ req ∈ r.readreq, req.txn = u)
    (stamps : ∀ req ∈ r.readreq, req.ts = (Function.update s.txn t x req.txn).ts) :
    Sound row { s with
      row := r
      txn := wake ([] : List (Act V τ)) (Function.update s.txn t x)
      log := s.log ++ [] } where
  settled := settled
  minPts := minPts
  owned := owned
  waiters := waiters
  stamps := stamps
  runs := by
    have runs := h.runs
    rw [← register] at runs
    rwa [List.append_nil]
  clean := h.clean

/-- What a call that leaves the transaction as it was keeps. -/
theorem still (h : s.Sound row) (same : x = s.txn t) : Sound row { s with
    row := s.row
    txn := wake ([] : List (Act V τ)) (Function.update s.txn t x)
    log := s.log ++ [] } := by
  subst same
  refine h.quiet h.settled h.minPts ?_ rfl ?_ ?_
  · rw [Function.update_eq_self]
    exact h.owned
  · rw [Function.update_eq_self]
    exact h.waiters
  · rw [Function.update_eq_self]
    exact h.stamps

theorem update_field {α : Type} (f : TxnState → α) (same : f x = f (s.txn t)) (u : τ) :
    f (Function.update s.txn t x u) = f (s.txn u) := by
  by_cases eq : u = t
  · rw [eq, Function.update_self, same]
  · rw [Function.update_of_ne eq]

/-- The same timestamps and pre-writes. -/
theorem same_owned (h : s.Sound row) (ts : x.ts = (s.txn t).ts)
    (pending : x.pending = (s.txn t).pending) (pre : r.prereq = s.row.prereq)
    (write : r.writereq = s.row.writereq) :
    r.Owned (fun u => (Function.update s.txn t x u).pending)
      fun u => (Function.update s.txn t x u).ts := by
  simp only [update_field TxnState.ts ts, update_field TxnState.pending pending]
  exact ⟨pre ▸ write ▸ h.owned.count, pre ▸ write ▸ h.owned.oldest⟩

theorem same_waiters (h : s.Sound row) (waiting : x.waiting = (s.txn t).waiting)
    (queue : r.readreq = s.row.readreq) (u : τ) :
    (Function.update s.txn t x u).waiting = true ↔ ∃ req ∈ r.readreq, req.txn = u := by
  rw [update_field TxnState.waiting waiting, queue]
  exact h.waiters u

theorem same_stamps (h : s.Sound row) (ts : x.ts = (s.txn t).ts)
    (queue : r.readreq = s.row.readreq) :
    ∀ req ∈ r.readreq, req.ts = (Function.update s.txn t x req.txn).ts := by
  intro req hreq
  rw [update_field TxnState.ts ts]
  exact h.stamps req (queue ▸ hreq)

theorem not_mem (h : s.Sound row) (idle : (s.txn t).waiting = false) :
    ∀ req ∈ s.row.readreq, req.txn ≠ t := by
  intro req hreq eq
  rw [(h.waiters t).mpr ⟨req, hreq, eq⟩] at idle
  cases idle

theorem read (h : s.Sound row) (idle : (s.txn t).waiting = false) :
    (s.access t .R_REQ none fun rc x => { x with waiting := rc = .WAIT }).Sound row := by
  -- the thread does not wait, so it has no request in the queue
  have notMem := h.not_mem idle
  have same : (⟨(s.txn t).ts, (s.txn t).pending, false⟩ : TxnState) = s.txn t := by rw [← idle]
  -- older than the last write: the transaction aborts
  by_cases old : (s.txn t).ts < s.row.wts
  · have eq : s.row.access t (s.txn t).ts .R_REQ none = some (.Abort, s.row, []) := if_pos old
    rw [TsState.access, eq]
    exact h.still same
  -- younger than a pre-write: the request is buffered
  by_cases pending : s.row.minPts < (s.txn t).ts
  · have eq : s.row.access t (s.txn t).ts .R_REQ none =
        some (.WAIT, s.row.bufferRead t (s.txn t).ts, []) := (if_neg old).trans (if_pos pending)
    rw [TsState.access, eq]
    apply h.quiet
    case settled =>
      refine ⟨h.settled.minPts, ?_, ?_, h.settled.rts, h.settled.rows⟩
      · change (if _ then _ else _) = calMin (_ :: s.row.readreq)
        rw [calMin_cons, ← h.settled.minRts]
      · intro req hreq
        rcases List.mem_cons.mp hreq with rfl | hreq
        · exact ⟨pending, Nat.not_lt.mp old⟩
        · exact h.settled.reads req hreq
    case minPts => exact h.minPts
    case owned => exact h.same_owned rfl rfl rfl rfl
    case register => rfl
    case waiters =>
      intro u
      by_cases eq : u = t
      · rw [eq, Function.update_self]
        exact ⟨fun _ => ⟨_, List.mem_cons_self, rfl⟩, fun _ => rfl⟩
      · rw [Function.update_of_ne eq, h.waiters u]
        constructor
        · rintro ⟨req, hreq, txn⟩
          exact ⟨req, List.mem_cons_of_mem _ hreq, txn⟩
        · rintro ⟨req, hreq, txn⟩
          rcases List.mem_cons.mp hreq with rfl | hreq
          · exact absurd txn.symm eq
          · exact ⟨req, hreq, txn⟩
    case stamps =>
      intro req hreq
      rcases List.mem_cons.mp hreq with rfl | hreq
      · rw [Function.update_self]
      · rw [Function.update_of_ne (notMem req hreq)]
        exact h.stamps req hreq
  · have eq : s.row.access t (s.txn t).ts .R_REQ none = some (.RCOK,
        { s.row with rts := if s.row.rts < (s.txn t).ts then (s.txn t).ts else s.row.rts },
        [.read t (s.txn t).ts s.row.row]) := (if_neg old).trans (if_neg pending)
    -- otherwise the value of the row is read
    have between : ∀ req ∈ [(⟨t, none, (s.txn t).ts⟩ : TsReqEntry V τ)],
        s.row.wts ≤ req.ts ∧ (req.ts : WithTop Nat) ≤ s.row.minPts := by
      intro req hreq
      rw [List.mem_singleton.mp hreq]
      exact ⟨Nat.not_lt.mp old, not_lt.mp pending⟩
    have serves := Register.runs_serve s.row.row s.row.wts h.settled.rts between
    rw [TsState.access, eq]
    change TsState.Sound row { s with
      row := _
      txn := wake _ (Function.update s.txn t ⟨(s.txn t).ts, (s.txn t).pending, false⟩)
      log := _ }
    rw [same, Function.update_eq_self, wake_self idle]
    refine ⟨?_, h.minPts, ⟨h.owned.count, h.owned.oldest⟩, h.waiters, h.stamps,
      h.runs.append serves.1, h.clean⟩
    exact ⟨h.settled.minPts, h.settled.minRts, h.settled.reads, serves.2, h.settled.rows⟩

theorem prewrite (h : s.Sound row) : (s.access t .P_REQ none fun rc x =>
    if rc = .RCOK then { x with pending := x.pending + 1 } else x).Sound row := by
  -- older than a read or a write that has been done: the transaction aborts
  by_cases read : (s.txn t).ts < s.row.rts
  · have eq : s.row.access t (s.txn t).ts .P_REQ none = some (.Abort, s.row, []) := if_pos read
    rw [TsState.access, eq]
    exact h.still rfl
  by_cases written : (s.txn t).ts < s.row.wts
  · have eq : s.row.access t (s.txn t).ts .P_REQ none = some (.Abort, s.row, []) :=
      (if_neg read).trans (if_pos written)
    rw [TsState.access, eq]
    exact h.still rfl
  have eq : s.row.access t (s.txn t).ts .P_REQ none =
      some (.RCOK, s.row.bufferPrewrite t (s.txn t).ts, []) :=
    (if_neg read).trans (if_neg written)
  have lower : (s.row.bufferPrewrite t (s.txn t).ts).minPts =
      calMin (s.row.bufferPrewrite t (s.txn t).ts).prereq := by
    change (if _ then _ else _) = calMin (_ :: s.row.prereq)
    rw [calMin_cons, ← h.minPts]
  -- the minimum of the pre-writes can only become smaller
  have le : (s.row.bufferPrewrite t (s.txn t).ts).minPts ≤ s.row.minPts := by
    rw [lower, h.minPts]
    exact calMin_anti (List.subset_cons_self ..)
  rw [TsState.access, eq]
  apply h.quiet
  case settled =>
    refine ⟨lower.le, h.settled.minRts, fun req hreq => ?_, ?_, h.settled.rows⟩
    · exact ⟨le.trans_lt (h.settled.reads req hreq).1, (h.settled.reads req hreq).2⟩
    · rw [lower]
      refine le_calMin_iff.mpr fun req hreq => ?_
      rcases List.mem_cons.mp hreq with rfl | hreq
      · exact WithTop.coe_le_coe.mpr (Nat.not_lt.mp read)
      · exact h.settled.rts.trans (h.minPts ▸ calMin_le hreq)
  case minPts => exact lower
  case owned =>
    apply h.owned.change t
    · intro u ne
      rw [Function.update_of_ne ne]
      exact ⟨List.filter_cons_of_neg (by simpa using ne.symm), rfl, rfl, rfl⟩
    · rw [Function.update_self]
      change (entriesOf t (_ :: s.row.prereq)).length = _ + ((s.txn t).pending + 1)
      rw [entriesOf_cons, List.length_cons, h.owned.count t]
      rfl
    · intro p isLast
      rw [Function.update_self]
      change p ∈ (entriesOf t (_ :: s.row.prereq)).getLast? at isLast
      rw [entriesOf_cons] at isLast
      -- the entry is put first, so the oldest one of the transaction is the same unless it is this
      -- one
      rcases List.eq_nil_or_concat (entriesOf t s.row.prereq) with none | ⟨front, last, eq⟩
      · have count := h.owned.count t
        rw [none] at isLast count
        obtain rfl := Option.some.inj isLast
        refine ⟨Nat.le_refl _, fun req hreq => ?_⟩
        have pos := List.length_pos_of_mem hreq
        rw [List.length_nil] at count
        change 0 < (entriesOf t s.row.writereq).length at pos
        omega
      · rw [List.getLast?_cons_of_ne_nil (by rw [eq]; simp)] at isLast
        exact h.owned.oldest t p isLast
  case register => rfl
  case waiters => exact h.same_waiters rfl rfl
  case stamps => exact h.same_stamps rfl rfl

/-- A write that waits takes the place of its pre-write. -/
theorem wait (h : s.Sound row) (some : (s.txn t).pending ≠ 0) (v : V) :
    Sound row { s with
      row := s.row.bufferWrite t (s.txn t).ts v
      txn := wake ([] : List (Act V τ))
        (Function.update s.txn t { s.txn t with pending := (s.txn t).pending - 1 })
      log := s.log ++ [] } := by
  apply h.quiet
  case settled =>
    refine ⟨h.settled.minPts, h.settled.minRts, h.settled.reads, h.settled.rts, fun req hreq => ?_⟩
    rcases List.mem_cons.mp hreq with rfl | hreq
    · exact Option.some_ne_none v
    · exact h.settled.rows req hreq
  case minPts => exact h.minPts
  -- the write comes into its queue, and its pre-write stays in the other one
  case owned =>
    apply h.owned.change t
    · intro u ne
      rw [Function.update_of_ne ne]
      exact ⟨rfl, List.filter_cons_of_neg (by simpa using ne.symm), rfl, rfl⟩
    · have count := h.owned.count t
      rw [Function.update_self]
      change (entriesOf t s.row.prereq).length =
        (entriesOf t (_ :: s.row.writereq)).length + ((s.txn t).pending - 1)
      rw [entriesOf_cons, List.length_cons, count]
      omega
    · intro p isLast
      obtain ⟨le, before⟩ := h.owned.oldest t p isLast
      rw [Function.update_self]
      refine ⟨le, fun req hreq => ?_⟩
      change req ∈ entriesOf t (_ :: s.row.writereq) at hreq
      rw [entriesOf_cons] at hreq
      rcases List.mem_cons.mp hreq with rfl | hreq
      · exact le
      · exact before req hreq
  case register => rfl
  case waiters => exact h.same_waiters rfl rfl
  case stamps => exact h.same_stamps rfl rfl

/-- The pre-write of a transaction is in the queue; without it the row is as the loop takes it. -/
theorem debuffer (h : s.Sound row) (more : (s.txn t).pending ≠ 0) : ∃ found rest,
    debufferTxn t s.row.prereq = some (found, rest) ∧ s.row.rts ≤ (s.txn t).ts ∧
      ({ s.row with prereq := rest } : RowTs V τ).Settled ∧
      ({ s.row with prereq := rest } : RowTs V τ).Owned
        (fun u => (Function.update s.txn t
          { s.txn t with pending := (s.txn t).pending - 1 } u).pending)
        fun u => (s.txn u).ts := by
  have count := h.owned.count t
  -- the transaction still has a write to make, so it has a pre-write in the queue
  have there : entriesOf t s.row.prereq ≠ [] := List.ne_nil_of_length_pos (by omega)
  obtain ⟨found, rest, eq, sub, entries⟩ := debufferTxn_spec there
  obtain ⟨p, isLast, above⟩ := h.settled.oldest_le there
  refine ⟨found, rest, eq, above.trans (h.owned.oldest t p isLast).1, ?_, ?_⟩
  · exact ⟨h.minPts ▸ calMin_anti sub, h.settled.minRts, h.settled.reads, h.settled.rts,
      h.settled.rows⟩
  · apply h.owned.change t
    · intro u ne
      rw [Function.update_of_ne ne]
      exact ⟨(entries u).trans (if_neg ne), rfl, rfl, rfl⟩
    · change (entriesOf t rest).length = (entriesOf t s.row.writereq).length + _
      rw [Function.update_self, entries, if_pos rfl, List.length_tail, count]
      change _ - 1 = _ + ((s.txn t).pending - 1)
      omega
    · intro p isLast
      change p ∈ (entriesOf t rest).getLast? at isLast
      rw [entries, if_pos rfl, List.getLast?_tail] at isLast
      split at isLast
      · cases isLast
      · exact h.owned.oldest t p isLast

/-- A pre-write that is not ended yet is not younger than its transaction. -/
theorem minPts_le (h : s.Sound row) (more : (s.txn t).pending ≠ 0) :
    s.row.minPts ≤ (s.txn t).ts := by
  have count := h.owned.count t
  have there : entriesOf t s.row.prereq ≠ [] := List.ne_nil_of_length_pos (by omega)
  have mem := List.mem_of_mem_filter (List.getLast_mem there)
  refine (h.minPts ▸ calMin_le mem).trans (WithTop.coe_le_coe.mpr ?_)
  exact (h.owned.oldest t _ (List.getLast?_eq_some_getLast there)).1

theorem rollback (h : s.Sound row) (idle : (s.txn t).waiting = false)
    (more : (s.txn t).pending ≠ 0) :
    (s.access t .XP_REQ none fun _ x => { x with pending := x.pending - 1 }).Sound row := by
  obtain ⟨found, rest, eq, -, settled, owned⟩ := h.debuffer more
  obtain ⟨r, acts, done, updated⟩ :=
    RowTs.updateLoop_spec settled owned (Nat.lt_succ_self _)
  have eq' : s.row.access t (s.txn t).ts .XP_REQ none = some (.RCOK, r, acts) :=
    Option.bind_eq_some_iff.mpr ⟨_, eq, Option.bind_eq_some_iff.mpr ⟨_, done, rfl⟩⟩
  rw [TsState.access, eq']
  exact h.served [] { s.row with prereq := rest } idle rfl idle (.nil _) (fun _ => rfl) updated rfl

theorem write (h : s.Sound row) (idle : (s.txn t).waiting = false)
    (more : (s.txn t).pending ≠ 0) (v : V) :
    (s.access t .W_REQ (some v) fun _ x => { x with pending := x.pending - 1 }).Sound row := by
  -- a pre-write or a read before it is still to come, so the write waits
  by_cases older : s.row.minPts < (s.txn t).ts
  · have eq : s.row.access t (s.txn t).ts .W_REQ (some v) =
        some (.RCOK, s.row.bufferWrite t (s.txn t).ts v, []) := if_pos older
    rw [TsState.access, eq]
    exact h.wait more v
  by_cases reader : s.row.minRts < (s.txn t).ts
  · have eq : s.row.access t (s.txn t).ts .W_REQ (some v) =
        some (.RCOK, s.row.bufferWrite t (s.txn t).ts v, []) :=
      (if_neg older).trans (if_pos reader)
    rw [TsState.access, eq]
    exact h.wait more v
  -- otherwise it is done, and the requests it kept waiting are looked at
  obtain ⟨found, rest, eq, le, settled, owned⟩ := h.debuffer more
  have put := settled.put (not_lt.mp reader) v
  obtain ⟨r, acts, done, updated⟩ :=
    RowTs.updateLoop_spec put ⟨owned.count, owned.oldest⟩ (Nat.lt_succ_self _)
  have eq' : s.row.access t (s.txn t).ts .W_REQ (some v) =
      some (.RCOK, r, .write (s.txn t).ts v :: acts) := by
    refine (if_neg older).trans ((if_neg reader).trans ?_)
    exact Option.bind_eq_some_iff.mpr ⟨_, eq, Option.bind_eq_some_iff.mpr ⟨_, done, rfl⟩⟩
  rw [TsState.access, eq']
  refine h.served [.write (s.txn t).ts v] _ idle rfl idle ?_ (fun _ => rfl) updated rfl
  rw [RowTs.register_put]
  exact .write le (.nil _)

theorem begin (h : s.Sound row) (idle : (s.txn t).waiting = false) (none : (s.txn t).pending = 0)
    {ts : Nat} (lt : (s.txn t).ts < ts) :
    Sound row { s with txn := Function.update s.txn t ⟨ts, 0, false⟩ } := by
  have notMem := h.not_mem idle
  -- the transaction has no entries of its own, and those of earlier ones are older
  have owned : s.row.Owned (fun u => (Function.update s.txn t ⟨ts, 0, false⟩ u).pending)
      fun u => (Function.update s.txn t ⟨ts, 0, false⟩ u).ts := by
    apply h.owned.change t
    · intro u ne
      rw [Function.update_of_ne ne]
      exact ⟨rfl, rfl, rfl, rfl⟩
    · rw [Function.update_self, h.owned.count t, none]
    · intro p isLast
      rw [Function.update_self]
      obtain ⟨le, before⟩ := h.owned.oldest t p isLast
      exact ⟨le.trans lt.le, before⟩
  refine ⟨h.settled, h.minPts, owned, fun u => ?_, fun req hreq => ?_, h.runs, h.clean⟩
  · change (Function.update s.txn t ⟨ts, 0, false⟩ u).waiting = true ↔ _
    rw [update_field TxnState.waiting idle.symm]
    exact h.waiters u
  · change req.ts = (Function.update s.txn t ⟨ts, 0, false⟩ req.txn).ts
    rw [Function.update_of_ne (notMem req hreq)]
    exact h.stamps req hreq

/-- What a call keeps. -/
theorem step {l : Call V τ} (h : s.Sound row) (next : tsStep s l = some s') : s'.Sound row := by
  unfold tsStep at next
  rw [if_neg (Bool.eq_false_iff.mp h.clean)] at next
  cases l with
  | begin t ts =>
    obtain ⟨⟨none, idle, lt⟩, next⟩ := Option.ite_none_right_eq_some.mp next
    cases next
    exact h.begin idle none lt
  | read t =>
    obtain ⟨idle, next⟩ := Option.ite_none_left_eq_some.mp next
    cases next
    exact h.read (Bool.eq_false_iff.mpr idle)
  | prewrite t =>
    obtain ⟨-, next⟩ := Option.ite_none_left_eq_some.mp next
    cases next
    exact h.prewrite
  | write t v =>
    obtain ⟨ready, next⟩ := Option.ite_none_left_eq_some.mp next
    cases next
    exact h.write (Bool.eq_false_iff.mpr fun waits => ready (.inl waits))
      (fun none => ready (.inr none)) v
  | rollback t =>
    obtain ⟨ready, next⟩ := Option.ite_none_left_eq_some.mp next
    cases next
    exact h.rollback (Bool.eq_false_iff.mpr fun waits => ready (.inl waits))
      fun none => ready (.inr none)

theorem init (row : V) : Sound row ⟨.init τ row, fun _ => ⟨0, 0, false⟩, [], false⟩ where
  settled := ⟨le_rfl, rfl, fun _ never => absurd never List.not_mem_nil, le_top,
    fun _ never => absurd never List.not_mem_nil⟩
  minPts := rfl
  owned := ⟨fun _ => rfl, fun _ p never => (by cases never)⟩
  waiters t := by
    constructor
    · intro never
      cases never
    · rintro ⟨req, never, -⟩
      cases never
  stamps _ never := absurd never List.not_mem_nil
  runs := .nil _
  clean := rfl

theorem reachable (reached : (tsMachine V τ row).Reachable Free s) : s.Sound row := by
  refine reached.invariant ?_ fun s l s' sound _ next => sound.step next
  rintro s rfl
  exact init row

end TsState.Sound

end DBx1000.Timestamp
