import DBx1000.Library.Scan
import DBx1000.System.Global
import Mathlib.Logic.Function.Basic
import Mathlib.Order.WithBot

/-!
# Rows under MVCC

`Row_mvcc`: a version that is the oldest (`_row`), an array of newer versions in no order, and
an array of requests that wait for a pre-write. The calls of `access` run under `blatch`. They
give `none` where an assertion fails; `debug` says whether `DEBUG_CC` compiles its assertions in.

`UINT64_MAX` is `⊤`, a `row_t *` is a number, `none` for `NULL`; `memory` has what is in the rows.
An entry of the array of requests that is not valid is `none`.
-/

namespace DBx1000.Mvcc

open Scan

structure WriteHisEntry where
  valid : Bool
  reserved : Bool
  ts : Nat
  row : Option Nat

structure ReqEntry (τ : Type*) where
  type : TsType
  ts : Nat
  txn : τ

/-- `fresh` is the next address that the allocator returns. -/
structure RowMvcc (V τ : Type*) where
  row : Option Nat
  latestRow : Option Nat
  latestWts : Nat
  oldestWts : Nat
  writeHistory : List WriteHisEntry
  existsPrewrite : Bool
  prewriteTs : Nat
  prewriteHisId : Nat
  maxServedRts : Nat
  requests : List (Option (ReqEntry τ))
  numVersions : Nat
  memory : Nat → V
  fresh : Nat

/-- A request that `update_buffer` served, with the `cur_row` of its transaction. -/
structure Woken (τ : Type*) where
  req : ReqEntry τ
  curRow : Option Nat

/-- What a call of `access` returns and whom it wakes. The `version` of a served read is a ghost:
the timestamp of the version that it gets. -/
structure Reply (τ : Type*) where
  rc : RC
  curRow : Option Nat
  version : Nat
  woken : List (Woken τ)

/-- An entry of a new history. -/
def WriteHisEntry.empty : WriteHisEntry := ⟨false, false, 0, none⟩

namespace RowMvcc

variable {V τ : Type*}

/-- `Row_mvcc::init`, for arrays of any lengths. -/
def init (τ : Type*) (hisLen reqLen : Nat) (memory : Nat → V) : RowMvcc V τ where
  row := some 0
  latestRow := some 0
  latestWts := 0
  oldestWts := 0
  writeHistory := List.replicate hisLen .empty
  existsPrewrite := false
  prewriteTs := 0
  prewriteHisId := 0
  maxServedRts := 0
  requests := List.replicate reqLen none
  numVersions := 0
  memory := memory
  fresh := 1

def hisLen (r : RowMvcc V τ) : Nat := r.writeHistory.length

def entry (r : RowMvcc V τ) (i : Nat) : WriteHisEntry := r.writeHistory[i]?.getD .empty

def modifyEntry (r : RowMvcc V τ) (i : Nat) (f : WriteHisEntry → WriteHisEntry) : RowMvcc V τ :=
  { r with writeHistory := r.writeHistory.modify i f }

/-! ### `buffer_req` -/

/-- The request in the first entry that is not valid. -/
def put (q : ReqEntry τ) : List (Option (ReqEntry τ)) → Option (List (Option (ReqEntry τ)))
  | [] => none
  | none :: qs => some (some q :: qs)
  | some p :: qs => (put q qs).map (some p :: ·)

/-- `buffer_req`, with `double_list(1)` when there is no such entry. -/
def bufferReq (r : RowMvcc V τ) (q : ReqEntry τ) : Option (RowMvcc V τ) :=
  match put q r.requests with
  | some requests => some { r with requests := requests }
  | none =>
    (put q (r.requests ++ List.replicate r.requests.length none)).map fun requests =>
      { r with requests := requests }

/-! ### `reserveRow` -/

/-- The greatest timestamp below `min_ts`, as the garbage collection looks for it. -/
def maxRecycle (r : RowMvcc V τ) (minTs : WithTop Nat) : Nat × Option Nat :=
  scanMax (fun e => e.valid = true ∧ WithTop.some e.ts < minTs) (·.ts) 0 r.writeHistory

/-- The version of the entry becomes the oldest one; the entry keeps the row that was. -/
def retire (r : RowMvcc V τ) (idx : Nat) : RowMvcc V τ :=
  { r.modifyEntry idx fun e => { e with row := r.row } with
    row := (r.entry idx).row
    oldestWts := (r.entry idx).ts }

/-- The versions up to a timestamp are no longer valid. -/
def forget (r : RowMvcc V τ) (ts : Nat) : RowMvcc V τ :=
  { r with
    writeHistory := r.writeHistory.map fun e =>
      if e.valid ∧ e.ts ≤ ts then { e with valid := false, reserved := false } else e
    -- the one that has just become the oldest is among them
    numVersions := r.numVersions - r.writeHistory.countP fun e => e.valid ∧ e.ts ≤ ts }

/-- The garbage collection. -/
def collect (minTs : WithTop Nat) (r : RowMvcc V τ) : Option (RowMvcc V τ) :=
  if WithTop.some r.oldestWts < minTs ∧ r.numVersions = r.hisLen then
    match r.maxRecycle minTs with
    | (_, none) => some r
    | (maxRecycleTs, some idx) =>
      -- each version that goes has a row
      if ∀ e ∈ (r.retire idx).writeHistory, e.valid ∧ e.ts ≤ maxRecycleTs → e.row ≠ none then
        some ((r.retire idx).forget maxRecycleTs)
      else none
  else some r

/-- The assertions of `DEBUG_CC` behind the garbage collection. -/
def Counted (r : RowMvcc V τ) : Prop :=
  r.writeHistory.countP (·.valid) = r.numVersions ∧
    (0 < r.numVersions →
      (scanMax (fun e : WriteHisEntry => e.valid = true) (·.ts) 0 r.writeHistory).1 = r.latestWts)

instance (r : RowMvcc V τ) : Decidable r.Counted := inferInstanceAs (Decidable (_ ∧ (_ → _)))

/-- An entry that is neither valid nor reserved: the first with a row, else the last one. -/
def findFree : List WriteHisEntry → Nat → Option Nat → Option Nat
  | [], _, idx => idx
  | e :: es, i, idx =>
    if ¬ e.valid ∧ ¬ e.reserved ∧ e.row ≠ none then some i
    else if ¬ e.valid ∧ ¬ e.reserved then findFree es (i + 1) (some i)
    else findFree es (i + 1) idx

/-- The oldest version of the history. -/
def minVersion (r : RowMvcc V τ) : WithTop Nat × Option Nat :=
  scanMin (fun e => e.valid = true) (fun e => WithTop.some e.ts) ⊤ r.writeHistory

/-- The oldest version of the history makes room, when the history is long enough. -/
def recycle (r : RowMvcc V τ) : Option (RowMvcc V τ × Nat) :=
  match r.minVersion with
  | (_, none) => none
  | (minTs, some idx) =>
    if WithTop.some r.oldestWts < minTs ∧ (r.entry idx).row ≠ none then
      some ({ r.retire idx with numVersions := r.numVersions - 1 }, idx)
    else none

/-- `double_list(0)`. -/
def doubleList (r : RowMvcc V τ) : RowMvcc V τ :=
  { r with writeHistory := r.writeHistory ++ List.replicate r.hisLen .empty }

/-- The entry for a pre-write. -/
def makeRoom (debug : Bool) (gThreadCnt ts : Nat) (r : RowMvcc V τ) :
    Option (RowMvcc V τ × Nat) :=
  if r.numVersions < r.hisLen then (findFree r.writeHistory 0 none).map fun idx => (r, idx)
  -- no longer than one version for each thread
  else if gThreadCnt ≤ r.hisLen then r.recycle
  else if debug ∧ ¬ (∀ e ∈ r.writeHistory, e.valid) then none
  -- the source sets `prewriteTs` here already
  else some ({ r.doubleList with prewriteTs := ts }, r.hisLen)

/-- Some entries have no row yet. -/
def allocRow (r : RowMvcc V τ) (idx : Nat) : RowMvcc V τ :=
  if (r.entry idx).row = none then
    { r.modifyEntry idx fun e => { e with row := some r.fresh } with fresh := r.fresh + 1 }
  else r

/-- The entry becomes that of the pre-write. -/
def reserve (r : RowMvcc V τ) (idx ts : Nat) : RowMvcc V τ :=
  { r.modifyEntry idx fun e => { e with valid := false, reserved := true, ts := ts } with
    existsPrewrite := true
    prewriteHisId := idx
    prewriteTs := ts }

/-- The assertion that there is an entry, which an array without entries does not have. -/
def reserveRow (debug : Bool) (gThreadCnt : Nat) (minTs : WithTop Nat) (ts : Nat)
    (r : RowMvcc V τ) : Option (RowMvcc V τ) :=
  -- `assert(!_exists_prewrite)`
  if r.existsPrewrite then none
  else
    (r.collect minTs).bind fun r =>
      if debug ∧ ¬ r.Counted then none
      else
        (r.makeRoom debug gThreadCnt ts).bind fun (r, idx) =>
          if idx < r.hisLen then some ((r.allocRow idx).reserve idx ts) else none

/-- The row of the pre-write. -/
def resRow (r : RowMvcc V τ) : Option Nat := (r.entry r.prewriteHisId).row

/-- The latest version is copied to the row that was reserved. -/
def copyLatest (r : RowMvcc V τ) : Option (RowMvcc V τ) :=
  match r.resRow, r.latestRow with
  | some dst, some src => some { r with memory := Function.update r.memory dst (r.memory src) }
  | _, _ => none

def prewrite (debug : Bool) (gThreadCnt : Nat) (minTs : WithTop Nat) (ts : Nat)
    (r : RowMvcc V τ) : Option (RowMvcc V τ) :=
  (r.reserveRow debug gThreadCnt minTs ts).bind copyLatest

/-! ### `update_buffer` -/

def serve (r : RowMvcc V τ) (ts : Nat) : RowMvcc V τ :=
  { r with maxServedRts := if ts > r.maxServedRts then ts else r.maxServedRts }

/-- The timestamp of the next pending pre-write. -/
def nextPreTs (ts : Nat) (qs : List (Option (ReqEntry τ))) : WithTop Nat :=
  (scanMin (fun q : ReqEntry τ => q.type = .P_REQ ∧ q.ts > ts) (fun q => WithTop.some q.ts) ⊤
    (qs.filterMap id)).1

/-- The loop that serves requests; the array that remains, and who is woken. -/
def wake (debug : Bool) (gThreadCnt : Nat) (minTs : WithTop Nat) (ts : Nat) (next : WithTop Nat) :
    List (Option (ReqEntry τ)) → RowMvcc V τ →
      Option (List (Option (ReqEntry τ)) × RowMvcc V τ × List (Woken τ))
  | [], r => some ([], r, [])
  | none :: qs, r =>
    (wake debug gThreadCnt minTs ts next qs r).map fun (qs, r, woken) => (none :: qs, r, woken)
  | some q :: qs, r =>
    -- a request that waits is younger
    if q.ts ≤ ts then none
    -- a read before the next pre-write gets the latest version
    else if q.type = .R_REQ ∧ WithTop.some q.ts < next then
      (wake debug gThreadCnt minTs ts next qs (r.serve q.ts)).map fun (qs, r', woken) =>
        (none :: qs, r', ⟨q, r.latestRow⟩ :: woken)
    else if WithTop.some q.ts = next then
      -- the next pre-write itself; a read with its timestamp fails an assertion
      if q.type = .P_REQ then
        (r.prewrite debug gThreadCnt minTs q.ts).bind fun r' =>
          (wake debug gThreadCnt minTs ts next qs r').map fun (qs, r'', woken) =>
            (none :: qs, r'', ⟨q, r'.resRow⟩ :: woken)
      else none
    else
      -- the others wait on
      (wake debug gThreadCnt minTs ts next qs r).map fun (qs, r, woken) => (some q :: qs, r, woken)

def updateBuffer (debug : Bool) (gThreadCnt : Nat) (minTs : WithTop Nat) (ts : Nat)
    (r : RowMvcc V τ) : Option (RowMvcc V τ × List (Woken τ)) :=
  (wake debug gThreadCnt minTs ts (nextPreTs ts r.requests) r.requests r).map
    fun (qs, r, woken) => ({ r with requests := qs }, woken)

/-! ### `access` -/

/-- The version that was current at `ts`; `the_ts` has 32 bits. -/
def search (ts : Nat) : List WriteHisEntry → Nat → Nat → Option Nat → Option Nat
  | [], _, _, theI => theI
  | e :: es, i, theTs, theI =>
    if e.valid ∧ e.ts < ts ∧ e.ts > theTs then search ts es (i + 1) (e.ts % 2 ^ 32) (some i)
    else search ts es (i + 1) theTs theI

/-- An `R_REQ`. -/
def readReq (r : RowMvcc V τ) (txn : τ) (ts : Nat) : Option (RowMvcc V τ × Reply τ) :=
  -- the version of that time is gone
  if ts < r.oldestWts then some (r, ⟨.Abort, none, 0, []⟩)
  else if ts > r.latestWts then
    -- the latest version, unless a pre-write before this read is pending
    if r.existsPrewrite ∧ r.prewriteTs < ts then
      (r.bufferReq ⟨.R_REQ, ts, txn⟩).map fun r => (r, ⟨.WAIT, none, 0, []⟩)
    else some (r.serve ts, ⟨.RCOK, r.latestRow, r.latestWts, []⟩)
  else
    -- an older version
    match search ts r.writeHistory 0 0 none with
    | none => some (r, ⟨.RCOK, r.row, r.oldestWts, []⟩)
    | some i => some (r, ⟨.RCOK, (r.entry i).row, (r.entry i).ts, []⟩)

/-- A `P_REQ`. -/
def prewriteReq (debug : Bool) (gThreadCnt : Nat) (minTs : WithTop Nat) (r : RowMvcc V τ) (txn : τ)
    (ts : Nat) : Option (RowMvcc V τ × Reply τ) :=
  -- too late: a version, a read or a pre-write is younger
  if ts < r.latestWts ∨ ts < r.maxServedRts ∨ (r.existsPrewrite ∧ r.prewriteTs > ts) then
    some (r, ⟨.Abort, none, 0, []⟩)
  else if r.existsPrewrite then
    (r.bufferReq ⟨.P_REQ, ts, txn⟩).map fun r => (r, ⟨.WAIT, none, 0, []⟩)
  else (r.prewrite debug gThreadCnt minTs ts).map fun r => (r, ⟨.RCOK, r.resRow, 0, []⟩)

/-- The pre-write becomes a version. -/
def commit (r : RowMvcc V τ) (ts : Nat) (row : Option Nat) : RowMvcc V τ :=
  { r.modifyEntry r.prewriteHisId fun e => { e with valid := true, ts := ts } with
    latestWts := ts
    latestRow := row
    existsPrewrite := false
    numVersions := r.numVersions + 1 }

/-- The pre-write is given up. -/
def rollback (r : RowMvcc V τ) : RowMvcc V τ :=
  { r.modifyEntry r.prewriteHisId fun e => { e with valid := false, reserved := false } with
    existsPrewrite := false }

/-- `access` under the latch. -/
def access (debug : Bool) (gThreadCnt : Nat) (minTs : WithTop Nat) (r : RowMvcc V τ) (txn : τ)
    (ts : Nat) (type : TsType) (row : Option Nat) : Option (RowMvcc V τ × Reply τ) :=
  -- the assertions of `DEBUG_CC` at the begin
  if debug ∧ ¬ (∀ q ∈ r.requests.filterMap id,
      q.ts > r.latestWts ∧ (r.existsPrewrite → r.prewriteTs < q.ts)) then none
  else
    match type with
    | .R_REQ => r.readReq txn ts
    | .P_REQ => r.prewriteReq debug gThreadCnt minTs txn ts
    | .W_REQ =>
      -- the row that is written is the one of the pre-write
      if ts > r.latestWts ∧ row = r.resRow then
        ((r.commit ts row).updateBuffer debug gThreadCnt minTs ts).map fun (r, woken) =>
          (r, ⟨.RCOK, none, 0, woken⟩)
      else none
    | .XP_REQ =>
      if row = r.resRow then
        (r.rollback.updateBuffer debug gThreadCnt minTs ts).map fun (r, woken) =>
          (r, ⟨.RCOK, none, 0, woken⟩)
      else none

end RowMvcc

end DBx1000.Mvcc
