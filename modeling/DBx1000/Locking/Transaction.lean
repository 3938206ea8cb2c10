import DBx1000.Library.Transition
import DBx1000.Locking.Requests

/-!
# Transactions under two-phase locking

`txn_man::get_row`, `row_t::get_row` with its loop for waiting transactions, and
`txn_man::cleanup` with `row_t::return_row`, for NO_WAIT, WAIT_DIE and DL_DETECT with
serializable isolation and `ROLL_BACK`. Every lock call, every copy of a row and every test
of the flags is a step of its own; what a transaction reads and writes, and when it
finishes, is part of the label, as is the moment at which the deadlock detector or the
timeout sets `lock_abort`.

The state records the operations and commits of the run, and the data that the committed
transactions have written.
-/

namespace DBx1000.Locking

open Transition RowLock

variable {ρ τ V : Type*}

structure Access (ρ V : Type*) where
  origRow : ρ
  type : AccessType
  /-- The before-image of a row that is accessed for writing. -/
  origData : Option V

inductive Phase (ρ : Type*)
  | idle
  | running
  /-- `lock_get` has returned WAIT. -/
  | queued (row : ρ) (type : AccessType)
  /-- The loop on `lock_ready` and `lock_abort`. -/
  | waiting (row : ρ) (type : AccessType)
  /-- The test of the flags behind the loop. -/
  | woken (row : ρ) (type : AccessType)
  /-- `return_row` of a request that is given up. -/
  | givingUp (row : ρ) (type : AccessType)
  /-- `row_t::get_row` has returned RCOK. -/
  | granted (row : ρ) (type : AccessType)
  /-- `txn_man::get_row` has returned NULL. -/
  | refused
  /-- The loop of `cleanup`; `restored` if the before-image of the last access is back. -/
  | cleanup (rc : RC) (restored : Bool)
  deriving DecidableEq

structure TxnState (ρ V : Type*) where
  phase : Phase ρ
  accesses : List (Access ρ V)
  lockAbort : Bool
  ts : Nat
  /-- The transactions that this `txn_man` has run so far. -/
  number : Nat

/-- An operation of the `number`-th transaction of a `txn_man`. -/
structure Event (ρ τ : Type*) where
  txn : τ × Nat
  row : ρ
  write : Bool

structure SystemState (ρ τ V : Type*) where
  data : ρ → V
  lock : ρ → RowLock τ
  lockReady : τ → Bool
  txn : τ → TxnState ρ V
  /-- The data that the last committed writer of each row has written. -/
  committed : ρ → V
  history : List (Event ρ τ)
  commits : List (τ × Nat)

inductive SystemLabel (ρ τ V : Type*)
  | start (t : τ) (ts : Nat)
  | getRow (t : τ) (row : ρ) (type : AccessType) (new : Addr)
  /-- The next step of a call that the transaction is in. -/
  | next (t : τ)
  /-- The timeout of the waiting transaction, or the deadlock detector. -/
  | setAbort (t : τ)
  | readRow (t : τ) (row : ρ)
  | writeRow (t : τ) (row : ρ) (v : V)
  | finish (t : τ) (rc : RC)

variable [DecidableEq ρ] [DecidableEq τ]

namespace SystemState

variable (s : SystemState ρ τ V)

def setTxn (t : τ) (x : TxnState ρ V) : SystemState ρ τ V :=
  { s with txn := Function.update s.txn t x }

def goto (t : τ) (p : Phase ρ) : SystemState ρ τ V := s.setTxn t { s.txn t with phase := p }

def timestamps (t : τ) : Nat := (s.txn t).ts

/-- `lock_release` of a row. -/
def lockRelease (t : τ) (row : ρ) : SystemState ρ τ V :=
  let (lock, lockReady) := (s.lock row).lockRelease s.lockReady t
  { s with lock := Function.update s.lock row lock, lockReady }

/-- An operation on a row to which the transaction has access. -/
def perform (t : τ) (row : ρ) (write : Bool) : SystemState ρ τ V :=
  { s with history := s.history ++ [⟨(t, (s.txn t).number), row, write⟩] }

end SystemState

/-- The rows that a transaction may have written. -/
def TxnState.writes (x : TxnState ρ V) (row : ρ) : Bool :=
  x.accesses.any fun a => a.origRow = row ∧ a.type = .WR

/-- `row_t::get_row` up to the answer of `lock_get`. -/
def SystemState.getRow (cfg : Config) (s : SystemState ρ τ V) (t : τ) (row : ρ) (type : AccessType)
    (new : Addr) : SystemState ρ τ V :=
  let res := (s.lock row).lockGet cfg s.timestamps s.lockReady type.lockType t new
  let s := { s with lock := Function.update s.lock row res.lock, lockReady := res.lockReady }
  s.goto t (match res.rc with
    | .RCOK => .granted row type
    | .Abort => .refused
    | .WAIT => .queued row type)

/-- One round of the loop of `cleanup`, for the last access `a` of those left. -/
def SystemState.cleanup (s : SystemState ρ τ V) (t : τ) (rc : RC) (restored : Bool)
    (a : Access ρ V) : SystemState ρ τ V :=
  match restored, rc, a.type, a.origData with
  -- the before-image first, then the lock
  | false, .Abort, .WR, some v =>
    { s with data := Function.update s.data a.origRow v }.goto t (.cleanup rc true)
  | _, _, _, _ =>
    (s.lockRelease t a.origRow).setTxn t
      { s.txn t with phase := .cleanup rc false, accesses := (s.txn t).accesses.dropLast }

/-- The next step of the call that the transaction is in. -/
def SystemState.next (s : SystemState ρ τ V) (t : τ) : Option (SystemState ρ τ V) :=
  let x := s.txn t
  match x.phase with
  | .idle | .running | .refused => none
  | .queued row type => some (s.setTxn t { x with lockAbort := false, phase := .waiting row type })
  -- the thread spins until one of the flags is set
  | .waiting row type =>
    if s.lockReady t || x.lockAbort then some (s.goto t (.woken row type)) else some s
  | .woken row type =>
    if s.lockReady t then some (s.goto t (.granted row type))
    else if x.lockAbort then some (s.goto t (.givingUp row type))
    -- neither branch is taken, and `txn_man::get_row` goes on with `rc` as it was
    else some (s.goto t (.granted row type))
  | .givingUp row _ => some ((s.lockRelease t row).goto t .refused)
  -- the copy of the row is made under the lock
  | .granted row type =>
    let origData := if type = .WR then some (s.data row) else none
    some (s.setTxn t { x with phase := .running, accesses := x.accesses ++ [⟨row, type, origData⟩] })
  | .cleanup rc restored =>
    match x.accesses.getLast? with
    | none => some (s.goto t .idle)
    | some a => some (s.cleanup t rc restored a)

def SystemState.step (cfg : Config) (s : SystemState ρ τ V) :
    SystemLabel ρ τ V → Option (SystemState ρ τ V)
  | .start t ts =>
    if (s.txn t).phase = .idle then
      some (s.setTxn t
        { s.txn t with phase := .running, accesses := [], ts, number := (s.txn t).number + 1 })
    else none
  | .getRow t row type new =>
    -- No caller asks for a row twice, and none asks for `XP`.
    if (s.txn t).phase = .running ∧ (∀ a ∈ (s.txn t).accesses, a.origRow ≠ row) ∧ type ≠ .XP ∧
        (s.lock row).inUse new = false then
      some (s.getRow cfg t row type new)
    else none
  | .next t => s.next t
  -- at any moment: the graph that the detector sees may be out of date
  | .setAbort t =>
    if cfg.ccAlg = .dlDetect then some (s.setTxn t { s.txn t with lockAbort := true }) else none
  | .readRow t row =>
    if (s.txn t).phase = .running ∧ ∃ a ∈ (s.txn t).accesses, a.origRow = row then
      some (s.perform t row false)
    else none
  | .writeRow t row v =>
    if (s.txn t).phase = .running ∧ (s.txn t).writes row then
      some { s.perform t row true with data := Function.update s.data row v }
    else none
  | .finish t rc =>
    match (s.txn t).phase, rc with
    | .running, .RCOK =>
      some ({ s with
        committed := fun row => if (s.txn t).writes row then s.data row else s.committed row
        commits := s.commits ++ [(t, (s.txn t).number)] }.goto t (.cleanup .RCOK false))
    | .running, .Abort | .refused, .Abort => some (s.goto t (.cleanup .Abort false))
    | _, _ => none

end DBx1000.Locking
