import DBx1000.Library.BubbleSort
import DBx1000.Library.SerialOrder
import DBx1000.System.Global
import DBx1000.TicToc.Renew

/-!
# TicToc transactions

`txn_man::get_row` and `txn_man::validate_tictoc` under `SERIALIZABLE`, with
`WR_VALIDATION_SEPARATE` and `ATOMIC_WORD` and without `TICTOC_MV`: any number of threads,
each with one transaction at a time. Every call of a `Row_tictoc` method is one step; a
step of a thread without a call only moves to the next part of `validate_tictoc`.

`preAbort` and `noWait` are the run-time parameters `_pre_abort` and
`_validation_no_wait`, `primaryKey` is `get_primary_key`, and `log` is a ghost: the
committed transactions in commit order.
-/

namespace DBx1000.TicToc

open Transition SerialOrder

variable {ρ V τ : Type*}

/-- An `Access`: `data` is the local copy of the row, which the transaction changes, `read`
is what the copy was when `Row_tictoc::access` made it. -/
structure Access (ρ V : Type*) where
  type : AccessType
  origRow : ρ
  wts : TsWord
  rts : TsWord
  read : V
  data : V

/-- The local variables of `validate_tictoc`. -/
structure Validation (ρ V : Type*) where
  readSet : List (Access ρ V)
  writeSet : List (Access ρ V)
  commitWts : TsWord

/-- Where a transaction is. The lists are the parts of `write_set` and `read_set` that a
loop has yet to visit; `held` is the part of `write_set` that `num_locks` counts. -/
inductive TxnPc (ρ V : Type*)
  | idle
  | running (accesses : List (Access ρ V))
  /-- The checks before locking, of the write set and of the read set. -/
  | preWrite (v : Validation ρ V) (rest : List (Access ρ V))
  | preRead (v : Validation ρ V) (rest : List (Access ρ V))
  /-- `try_lock` or `lock`, and `get_wts` after it. -/
  | lock (v : Validation ρ V) (held rest : List (Access ρ V))
  | check (v : Validation ρ V) (held : List (Access ρ V)) (a : Access ρ V)
      (rest : List (Access ρ V))
  /-- The release of all locks after a failed `try_lock`. -/
  | backOff (v : Validation ρ V) (rest : List (Access ρ V))
  /-- `get_rts` of the write set, once to compare and once more to assign. -/
  | getRts (v : Validation ρ V) (rest : List (Access ρ V))
  | raise (v : Validation ρ V) (a : Access ρ V) (rest : List (Access ρ V))
  | renew (v : Validation ρ V) (rest : List (Access ρ V))
  | commit (v : Validation ρ V)
  | write (v : Validation ρ V) (rest : List (Access ρ V))
  | release (v : Validation ρ V) (a : Access ρ V) (rest : List (Access ρ V))
  | abort (rest : List (Access ρ V))

structure TxnState (ρ V τ : Type*) where
  word : ρ → TsWord
  data : ρ → V
  pc : τ → TxnPc ρ V
  log : List (Entry ρ V)

inductive TxnLabel (ρ V τ : Type*)
  | begin (t : τ)
  /-- `get_row`. -/
  | getRow (t : τ) (row : ρ) (type : AccessType)
  /-- The transaction writes to the local copy of its access number `rid`. -/
  | modify (t : τ) (rid : Nat) (data : V)
  /-- `finish(RCOK)` up to the first method call, and `finish(Abort)`. -/
  | finish (t : τ)
  | rollback (t : τ)
  | next (t : τ)

/-! ### The computations of `validate_tictoc` -/

def readSet (accesses : List (Access ρ V)) : List (Access ρ V) :=
  accesses.filter (·.type ≠ .WR)

def writeSet (primaryKey : ρ → Nat) (accesses : List (Access ρ V)) : List (Access ρ V) :=
  BubbleSort.sort (fun a b => primaryKey a.origRow > primaryKey b.origRow)
    (accesses.filter (·.type = .WR))

/-- One turn of the loop that computes `commit_rts` and `commit_wts`. -/
def countAccess (ts : TsWord × TsWord) (a : Access ρ V) : TsWord × TsWord :=
  -- a `SCAN` counts for neither
  if a.type = .RD ∧ a.wts > ts.1 then (a.wts, ts.2)
  else if a.type = .WR ∧ a.rts + 1 > ts.2 then (ts.1, a.rts + 1)
  else ts

/-- The `commit_wts` that validation starts with. -/
def commitTs (accesses : List (Access ρ V)) : TsWord :=
  let ts := accesses.foldl countAccess (0, 0)
  if ts.1 > ts.2 then ts.1 else ts.2

/-- `Row_tictoc::try_renew` in one step: the word it leaves and what it returns. -/
def tryRenew (v wts rts : TsWord) : TsWord × Bool :=
  match renewLoad v wts rts with
  | .returns b => (v, b)
  | .loops c => (c.v2, true)

/-- A committed transaction: all its accesses have read, those of the write set write. -/
def Validation.entry (v : Validation ρ V) : Entry ρ V where
  time := v.commitWts.toNat
  reads := (v.readSet ++ v.writeSet).map fun a => (a.origRow, a.read)
  writes := v.writeSet.map fun a => (a.origRow, a.data)

/-! ### Steps -/

variable [DecidableEq ρ] [DecidableEq τ]

def TxnState.goto (s : TxnState ρ V τ) (t : τ) (p : TxnPc ρ V) : TxnState ρ V τ :=
  { s with pc := Function.update s.pc t p }

def TxnState.setWord (s : TxnState ρ V τ) (x : ρ) (w : TsWord) : TxnState ρ V τ :=
  { s with word := Function.update s.word x w }

/-- `Row_tictoc::access` on an unlocked row. -/
def TxnState.access (s : TxnState ρ V τ) (row : ρ) (type : AccessType) : Access ρ V :=
  ⟨type, row, wordWts (s.word row), getRts (s.word row), s.data row, s.data row⟩

def TxnState.unlock (s : TxnState ρ V τ) (row : ρ) : TxnState ρ V τ :=
  s.setWord row (s.word row &&& ~~~lockBit)

/-- The begin of the locking phase, with or without the checks before it. -/
def startLocking (preAbort : Bool) (v : Validation ρ V) : TxnPc ρ V :=
  if preAbort then .preWrite v v.writeSet else .lock v [] v.writeSet

/-- The next step of the validation of thread `t`; `none` while `lock` waits. -/
def validate (preAbort noWait : Bool) (s : TxnState ρ V τ) (t : τ) : Option (TxnState ρ V τ) :=
  match s.pc t with
  | .idle | .running _ => none
  -- the comparisons before the locking phase, without locks
  | .preWrite v [] => some (s.goto t (.preRead v v.readSet))
  | .preWrite v (a :: rest) =>
    if wordWts (s.word a.origRow) ≠ a.wts then some (s.goto t (.abort []))
    else some (s.goto t (.preWrite v rest))
  | .preRead v [] => some (s.goto t (.lock v [] v.writeSet))
  | .preRead v (a :: rest) =>
    let w := s.word a.origRow
    if v.commitWts > getRts w ∧ wordWts w ≠ a.wts then some (s.goto t (.abort []))
    else some (s.goto t (.preRead v rest))
  -- all locks are held
  | .lock v _ [] => some (s.goto t (.getRts v v.writeSet))
  | .lock v held (a :: rest) =>
    let w := s.word a.origRow
    if locked w then if noWait then some (s.goto t (.backOff v held)) else none
    else some ((s.setWord a.origRow (w ||| lockBit)).goto t (.check v held a rest))
  -- the write timestamp is compared again under the lock
  | .check v held a rest =>
    if wordWts (s.word a.origRow) ≠ a.wts then some (s.goto t (.abort (held ++ [a])))
    else some (s.goto t (.lock v (held ++ [a]) rest))
  -- all locks are given back, and the locking phase begins again
  | .backOff v [] => some (s.goto t (startLocking preAbort v))
  | .backOff v (a :: rest) => some ((s.unlock a.origRow).goto t (.backOff v rest))
  -- `commit_wts` is raised behind the leases of the write set
  | .getRts v [] => some (s.goto t (.renew v v.readSet))
  | .getRts v (a :: rest) =>
    if getRts (s.word a.origRow) + 1 > v.commitWts then some (s.goto t (.raise v a rest))
    else some (s.goto t (.getRts v rest))
  | .raise v a rest =>
    some (s.goto t (.getRts { v with commitWts := getRts (s.word a.origRow) + 1 } rest))
  -- the reads, whose leases may be too short
  | .renew v [] => some (s.goto t (.commit v))
  | .renew v (a :: rest) =>
    if a.rts < v.commitWts then
      let renewed := tryRenew (s.word a.origRow) a.wts v.commitWts
      some ((s.setWord a.origRow renewed.1).goto t
        (if renewed.2 then .renew v rest else .abort v.writeSet))
    else some (s.goto t (.renew v rest))
  | .commit v => some { s.goto t (.write v v.writeSet) with log := s.log ++ [v.entry] }
  -- the writes: data and word, then the lock
  | .write _ [] => some (s.goto t .idle)
  | .write v (a :: rest) =>
    let w := writeWord (s.word a.origRow) v.commitWts
    some { (s.setWord a.origRow w).goto t (.release v a rest) with
      data := Function.update s.data a.origRow a.data }
  | .release v a rest => some ((s.unlock a.origRow).goto t (.write v rest))
  | .abort [] => some (s.goto t .idle)
  | .abort (a :: rest) => some ((s.unlock a.origRow).goto t (.abort rest))

/-- A transaction accesses a row at most once. -/
def txnStep (primaryKey : ρ → Nat) (preAbort noWait : Bool) (s : TxnState ρ V τ) :
    TxnLabel ρ V τ → Option (TxnState ρ V τ)
  | .begin t =>
    match s.pc t with
    | .idle => some (s.goto t (.running []))
    | _ => none
  | .getRow t row type =>
    match s.pc t with
    | .running accesses =>
      if locked (s.word row) ∨ row ∈ accesses.map (·.origRow) then none
      else some (s.goto t (.running (accesses ++ [s.access row type])))
    | _ => none
  | .modify t rid data =>
    match s.pc t with
    | .running accesses =>
      some (s.goto t (.running (accesses.modify rid fun a => { a with data := data })))
    | _ => none
  | .finish t =>
    match s.pc t with
    | .running accesses =>
      some (s.goto t (startLocking preAbort
        ⟨readSet accesses, writeSet primaryKey accesses, commitTs accesses⟩))
    | _ => none
  | .rollback t =>
    match s.pc t with
    | .running _ => some (s.goto t .idle)
    | _ => none
  | .next t => validate preAbort noWait s t

/-- Rows as `Row_tictoc::init` leaves them, with any data, and no transaction. -/
def txnMachine (primaryKey : ρ → Nat) (preAbort noWait : Bool) (init : ρ → V) (τ : Type*)
    [DecidableEq τ] : Machine (TxnState ρ V τ) (TxnLabel ρ V τ) where
  init s := s = ⟨fun _ => 0, init, fun _ => .idle, []⟩
  step := txnStep primaryKey preAbort noWait

end DBx1000.TicToc
