import Mathlib.Algebra.Order.Ring.WithTop
import DBx1000.System.Global
import Mathlib.Logic.Function.Basic
import Mathlib.Order.WithBot

/-!
# Rows under Hekaton

`Row_hekaton`: a circular buffer of versions, of which the entries from `_his_oldest` to
`_his_latest` are committed; behind them is the version of a transaction that has yet to
commit, if `_exists_prewrite` is set. The four methods run under `blatch`.

`INF` is `⊤`, a `row_t *` is a number, `none` for `NULL`. What is in the rows is left out:
the methods hand out the pointers, and only the transactions look behind them.
-/

namespace DBx1000.Hekaton

/-- A `WriteHisEntry`; `begin` and `endTs` are the id of a transaction where the flags say so. -/
structure WriteHisEntry where
  beginTxn : Bool
  endTxn : Bool
  begin : Nat
  endTs : WithTop Nat
  row : Option Nat

/-- `fresh` is the next address that the allocator returns. -/
structure RowHekaton where
  hisLatest : Nat
  hisOldest : Nat
  writeHistory : Nat → WriteHisEntry
  existsPrewrite : Bool
  hisLen : Nat
  fresh : Nat

namespace RowHekaton

/-- `Row_hekaton::init`. -/
def init : RowHekaton where
  hisLatest := 0
  hisOldest := 0
  writeHistory i :=
    if i = 0 then ⟨false, false, 0, ⊤, some 0⟩ else ⟨false, false, 0, WithTop.some 0, none⟩
  existsPrewrite := false
  hisLen := 4
  fresh := 1

def next (r : RowHekaton) (i : Nat) : Nat := (i + 1) % r.hisLen

def prev (r : RowHekaton) (i : Nat) : Nat := if i = 0 then r.hisLen - 1 else i - 1

def setEntry (r : RowHekaton) (i : Nat) (e : WriteHisEntry) : RowHekaton :=
  { r with writeHistory := Function.update r.writeHistory i e }

def latest (r : RowHekaton) : WriteHisEntry := r.writeHistory r.hisLatest

def oldest (r : RowHekaton) : WriteHisEntry := r.writeHistory r.hisOldest

/-- The entry behind the latest one. -/
def behind (r : RowHekaton) : WriteHisEntry := r.writeHistory (r.next r.hisLatest)

/-! ### `access` -/

/-- What an `R_REQ` does; the assertion behind the search may fail. -/
inductive ReadResult
  | abort
  | fails
  | ok (e : WriteHisEntry)

/-- The search for the version that was current at `ts`, from the index before `i` on. -/
def search (r : RowHekaton) (ts : Nat) : Nat → Nat → ReadResult
  | 0, _ => .fails
  | fuel + 1, i =>
    let i := r.prev i
    let e := r.writeHistory i
    -- the version before the first one that is too young
    if e.begin < ts then if e.endTs > WithTop.some ts then .ok e else .fails
    else if i = r.hisOldest then .fails
    else search r ts fuel i

/-- `access` for an `R_REQ`. -/
def read (r : RowHekaton) (ts : Nat) : ReadResult :=
  if ts < r.oldest.begin then .abort
  else if ts > r.latest.begin then .ok r.latest
  else r.search ts r.hisLen r.hisLatest

def doubleHistory (r : RowHekaton) : RowHekaton :=
  { r with
    writeHistory := fun i =>
      -- the ring is unrolled, with the oldest version first
      if i < r.hisLen then r.writeHistory ((r.hisOldest + i) % r.hisLen)
      else ⟨false, false, 0, (0 : Nat), none⟩
    hisOldest := 0
    hisLatest := r.hisLen - 1
    hisLen := r.hisLen * 2 }

/-- The garbage collection of `reserveRow`. -/
def collect (minTs : WithTop Nat) : Nat → RowHekaton → RowHekaton
  | 0, r => r
  | fuel + 1, r =>
    if r.oldest.endTs < minTs then collect minTs fuel { r with hisOldest := r.next r.hisOldest }
    else r

def full (r : RowHekaton) : Prop := r.next r.hisLatest = r.hisOldest

instance (r : RowHekaton) : Decidable r.full := inferInstanceAs (Decidable (_ = _))

/-- The entry for a new version: behind the latest one, if need be in place of the oldest. -/
def makeRoom (gThreadCnt : Nat) (r : RowHekaton) : RowHekaton × Nat :=
  if ¬ r.full then (r, r.next r.hisLatest)
  else if r.hisLen < gThreadCnt then (r.doubleHistory, r.doubleHistory.next r.doubleHistory.hisLatest)
  -- the oldest version is given up, although somebody may read it
  else ({ r with hisOldest := r.next r.hisOldest }, r.hisOldest)

/-- Some entries have no row yet. -/
def allocRow (r : RowHekaton) (i : Nat) : RowHekaton :=
  if (r.writeHistory i).row = none then
    { r.setEntry i { r.writeHistory i with row := some r.fresh } with fresh := r.fresh + 1 }
  else r

def reserveRow (gThreadCnt : Nat) (minTs : WithTop Nat) (r : RowHekaton) : RowHekaton × Nat :=
  let r := if r.full ∧ minTs > r.oldest.endTs then r.collect minTs r.hisLen else r
  let (r, idx) := r.makeRoom gThreadCnt
  (r.allocRow idx, idx)

/-- `access` for a `P_REQ`: the row and `cur_row`, or `none` for an abort. -/
def prewrite (gThreadCnt : Nat) (minTs : WithTop Nat) (txnId ts : Nat) (r : RowHekaton) :
    Option (RowHekaton × Option Nat) :=
  if r.existsPrewrite ∨ ts < r.latest.begin then none
  else
    let (r, id) := { r with existsPrewrite := true }.reserveRow gThreadCnt minTs
    let r := r.setEntry id { r.writeHistory id with beginTxn := true, begin := txnId }
    -- the version before ends with this transaction
    let preId := r.prev id
    let r := r.setEntry preId { r.writeHistory preId with endTxn := true, endTs := WithTop.some txnId }
    some (r, (r.writeHistory id).row)

/-! ### `prepare_read` and `post_process` -/

/-- The entry with a row, from the index `idx` back to the oldest. -/
def find (r : RowHekaton) (row : Option Nat) : Nat → Nat → Option WriteHisEntry
  | 0, _ => none
  | fuel + 1, idx =>
    if (r.writeHistory idx).row = row then some (r.writeHistory idx)
    else if idx = r.hisOldest then none
    else find r row fuel (r.prev idx)

/-- `prepare_read`. If the end of the version is a transaction, it is not looked at. -/
def prepareRead (r : RowHekaton) (ts : Nat) (row : Option Nat) (commitTs : Nat) : RC :=
  match r.find row r.hisLen r.hisLatest with
  | none => .Abort
  | some e =>
    if ts < e.begin then .Abort
    else if !e.endTxn ∧ e.endTs > WithTop.some commitTs then .RCOK
    -- the version is out of date
    else if !e.endTxn ∧ e.endTs < WithTop.some commitTs then .Abort
    else .RCOK

/-- `post_process`. -/
def postProcess (r : RowHekaton) (commitTs : Nat) (rc : RC) : RowHekaton :=
  let p := r.next r.hisLatest
  if rc = .RCOK then
    let r := r.setEntry r.hisLatest { r.latest with endTxn := false, endTs := WithTop.some commitTs }
    let r := r.setEntry p { r.writeHistory p with begin := commitTs, endTs := ⊤ }
    { r with existsPrewrite := false, hisLatest := p }
  else
    -- the latest version has no end again, and the new one stays behind it
    { r.setEntry r.hisLatest { r.latest with endTxn := false, endTs := ⊤ } with
      existsPrewrite := false }

end RowHekaton

end DBx1000.Hekaton
