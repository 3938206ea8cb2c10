import DBx1000.Library.BubbleSort
import DBx1000.Library.SerialOrder
import DBx1000.Library.Transition
import DBx1000.System.Global

/-!
# Silo transactions

`txn_man::get_row` and `txn_man::validate_silo` with `ATOMIC_WORD`: any number of threads,
each with one transaction at a time. Every load, compare-and-swap and store of a
`_tid_word` and every copy of a row is a step of its own; loads in a row of a word that the
thread itself has locked are one step.

`preAbort` and `noWait` are the run-time parameters `_pre_abort` and
`_validation_no_wait`, `primaryKey` is `get_primary_key`. `now`, `log` and `failed` are
ghosts: how often a transaction has had all its locks, the committed transactions, stamped
with the number of that moment, and whether an assertion has failed.
-/

namespace DBx1000.Silo

open Transition SerialOrder

variable {ρ V τ : Type*}

/-- A `_tid_word`: `LOCK_BIT` and the 63 bits below it, as a number. -/
structure TidWord where
  tid : Nat
  lock : Bool
  deriving DecidableEq

/-- An `Access`: `data` is the local copy of the row, which the transaction changes, `read`
is what the copy was when `Row_silo::access` made it. -/
structure Access (ρ V : Type*) where
  type : AccessType
  origRow : ρ
  tid : Nat
  read : V
  data : V

/-- `read_set` and `write_set` of `validate_silo`. -/
structure Validation (ρ V : Type*) where
  readSet : List (Access ρ V)
  writeSet : List (Access ρ V)

/-- Where a transaction is. The lists `rest` are the parts of the sets that a loop has yet to
visit, `held` is the part of `write_set` that `num_locks` counts. -/
inductive SiloPc (ρ V : Type*)
  | idle
  | running (accesses : List (Access ρ V))
  /-- `Row_silo::access`: the load of `v`, the copy, and the load of `v2`. -/
  | load (accesses : List (Access ρ V)) (row : ρ) (type : AccessType)
  | copy (accesses : List (Access ρ V)) (row : ρ) (type : AccessType) (v : TidWord)
  | reload (accesses : List (Access ρ V)) (row : ρ) (type : AccessType) (v : TidWord) (data : V)
  /-- The comparisons of `_pre_abort`. -/
  | preWrite (v : Validation ρ V) (rest : List (Access ρ V))
  | preRead (v : Validation ρ V) (rest : List (Access ρ V))
  /-- `try_lock` or `lock`: the load and the compare-and-swap, and `get_tid` after them. -/
  | lock (v : Validation ρ V) (held rest : List (Access ρ V))
  | cas (v : Validation ρ V) (held : List (Access ρ V)) (a : Access ρ V)
      (rest : List (Access ρ V)) (word : TidWord)
  | check (v : Validation ρ V) (held : List (Access ρ V)) (a : Access ρ V)
      (rest : List (Access ρ V))
  /-- The release of `num_locks` locks, to try again or to abort. -/
  | unlock (again : Option (Validation ρ V)) (rest : List (Access ρ V))
  | clear (again : Option (Validation ρ V)) (a : Access ρ V) (rest : List (Access ρ V))
      (word : TidWord)
  /-- `validate` for the read set and the write set; `stamp` is a ghost. -/
  | readValidate (v : Validation ρ V) (stamp : Nat) (rest : List (Access ρ V)) (maxTid : Nat)
  | writeValidate (v : Validation ρ V) (stamp : Nat) (rest : List (Access ρ V)) (maxTid : Nat)
  /-- `write`: the copy, the load of its assertion and the store; and `release`. -/
  | write (tid : Nat) (rest : List (Access ρ V))
  | verify (tid : Nat) (a : Access ρ V) (rest : List (Access ρ V))
  | store (tid : Nat) (a : Access ρ V) (rest : List (Access ρ V))
  | release (tid : Nat) (a : Access ρ V) (rest : List (Access ρ V))
  | releaseStore (tid : Nat) (a : Access ρ V) (rest : List (Access ρ V)) (word : TidWord)

structure SiloState (ρ V τ : Type*) where
  word : ρ → TidWord
  data : ρ → V
  curTid : τ → Nat
  pc : τ → SiloPc ρ V
  now : Nat
  log : List (Entry ρ V)
  failed : Bool

inductive SiloLabel (ρ V τ : Type*)
  | begin (t : τ)
  /-- `get_row`, up to the call of `Row_silo::access`. -/
  | getRow (t : τ) (row : ρ) (type : AccessType)
  /-- The transaction writes to the local copy of its access number `rid`. -/
  | modify (t : τ) (rid : Nat) (data : V)
  /-- `finish(RCOK)` up to the first load, and `finish(Abort)`. -/
  | finish (t : τ)
  | rollback (t : τ)
  | next (t : τ)

/-! ### The computations of `validate_silo` -/

def readSet (accesses : List (Access ρ V)) : List (Access ρ V) :=
  accesses.filter (·.type ≠ .WR)

def writeSet (primaryKey : ρ → Nat) (accesses : List (Access ρ V)) : List (Access ρ V) :=
  BubbleSort.sort (fun a b => primaryKey a.origRow > primaryKey b.origRow)
    (accesses.filter (·.type = .WR))

/-- The update of `max_tid`. -/
def raiseTid (maxTid : Nat) (a : Access ρ V) : Nat := if a.tid > maxTid then a.tid else maxTid

/-- The update of `_cur_tid`. -/
def nextTid (curTid maxTid : Nat) : Nat := if maxTid > curTid then maxTid + 1 else curTid + 1

/-- A committed transaction: all its accesses have read, those of the write set write. -/
def Validation.entry (v : Validation ρ V) (stamp : Nat) : Entry ρ V where
  time := stamp
  reads := (v.readSet ++ v.writeSet).map fun a => (a.origRow, a.read)
  writes := v.writeSet.map fun a => (a.origRow, a.data)

/-- `Row_silo::validate`. -/
def TidWord.validate (w : TidWord) (tid : Nat) (inWriteSet : Bool) : Bool :=
  if inWriteSet then tid = w.tid else if w.lock then false else if tid ≠ w.tid then false else true

/-- The begin of the locking phase, with or without the comparisons before it. -/
def startLocking (preAbort : Bool) (v : Validation ρ V) : SiloPc ρ V :=
  if preAbort then .preWrite v v.writeSet else .lock v [] v.writeSet

/-! ### Steps -/

variable [DecidableEq ρ] [DecidableEq τ]

namespace SiloState

def goto (s : SiloState ρ V τ) (t : τ) (p : SiloPc ρ V) : SiloState ρ V τ :=
  { s with pc := Function.update s.pc t p }

def setWord (s : SiloState ρ V τ) (x : ρ) (w : TidWord) : SiloState ρ V τ :=
  { s with word := Function.update s.word x w }

/-- A step that asserts a condition. -/
def assert (s : SiloState ρ V τ) (ok : Bool) : SiloState ρ V τ :=
  { s with failed := s.failed || !ok }

/-- All locks are held: a moment of its own number. -/
def stamp (s : SiloState ρ V τ) (t : τ) (v : Validation ρ V) : SiloState ρ V τ :=
  { s.goto t (.readValidate v s.now v.readSet 0) with now := s.now + 1 }

/-- The assignment of `_cur_tid`, after which nothing can fail. -/
def commit (s : SiloState ρ V τ) (t : τ) (v : Validation ρ V) (stamp maxTid : Nat) :
    SiloState ρ V τ :=
  let tid := nextTid (s.curTid t) maxTid
  { s.goto t (.write tid v.writeSet) with
    curTid := Function.update s.curTid t tid, log := s.log ++ [v.entry stamp] }

/-- `_row->copy(data)` in `Row_silo::write`. -/
def copyRow (s : SiloState ρ V τ) (t : τ) (tid : Nat) (a : Access ρ V) (rest : List (Access ρ V)) :
    SiloState ρ V τ :=
  { s.goto t (.verify tid a rest) with data := Function.update s.data a.origRow a.data }

end SiloState

/-- The next step of thread `t` in `access` or `validate_silo`; `none` while it waits for a
lock. -/
def siloNext (preAbort noWait : Bool) (s : SiloState ρ V τ) (t : τ) : Option (SiloState ρ V τ) :=
  match s.pc t with
  | .idle | .running _ => none
  | .load accesses row type =>
    if (s.word row).lock then none else some (s.goto t (.copy accesses row type (s.word row)))
  | .copy accesses row type v => some (s.goto t (.reload accesses row type v (s.data row)))
  -- the copy is good if the word has not changed meanwhile
  | .reload accesses row type v data =>
    if s.word row ≠ v then some (s.goto t (.load accesses row type))
    else some (s.goto t (.running (accesses ++ [⟨type, row, v.tid, data, data⟩])))
  -- the comparisons before the locking phase, without locks
  | .preWrite v [] => some (s.goto t (.preRead v v.readSet))
  | .preWrite v (a :: rest) =>
    if (s.word a.origRow).tid ≠ a.tid then some (s.goto t (.unlock none []))
    else some (s.goto t (.preWrite v rest))
  | .preRead v [] => some (s.goto t (.lock v [] v.writeSet))
  | .preRead v (a :: rest) =>
    if (s.word a.origRow).tid ≠ a.tid then some (s.goto t (.unlock none []))
    else some (s.goto t (.preRead v rest))
  -- all locks are held
  | .lock v _ [] => some (s.stamp t v)
  | .lock v held (a :: rest) =>
    if (s.word a.origRow).lock then
      if noWait then some (s.goto t (.unlock (some v) held)) else none
    else some (s.goto t (.cas v held a rest (s.word a.origRow)))
  | .cas v held a rest w =>
    if s.word a.origRow = w then
      some ((s.setWord a.origRow { w with lock := true }).goto t (.check v held a rest))
    else if noWait then some (s.goto t (.unlock (some v) held))
    else some (s.goto t (.lock v held (a :: rest)))
  -- after the compare and swap the version is compared again
  | .check v held a rest =>
    let s' := s.assert (!noWait || (s.word a.origRow).lock)
    if (s.word a.origRow).tid ≠ a.tid then some (s'.goto t (.unlock none (held ++ [a])))
    else some (s'.goto t (.lock v (held ++ [a]) rest))
  -- the locks are given back, before another try or at the abort
  | .unlock none [] => some (s.goto t .idle)
  | .unlock (some v) [] => some (s.goto t (startLocking preAbort v))
  | .unlock again (a :: rest) =>
    some ((s.assert (s.word a.origRow).lock).goto t
      (.clear again a rest { s.word a.origRow with lock := false }))
  | .clear again a rest w => some ((s.setWord a.origRow w).goto t (.unlock again rest))
  -- reads first, then the writes, and `max_tid` along with them
  | .readValidate v stamp [] maxTid => some (s.goto t (.writeValidate v stamp v.writeSet maxTid))
  | .readValidate v stamp (a :: rest) maxTid =>
    if (s.word a.origRow).validate a.tid false then
      some (s.goto t (.readValidate v stamp rest (raiseTid maxTid a)))
    else some (s.goto t (.unlock none v.writeSet))
  | .writeValidate v stamp [] maxTid => some (s.commit t v stamp maxTid)
  | .writeValidate v stamp (a :: rest) maxTid =>
    if (s.word a.origRow).validate a.tid true then
      some (s.goto t (.writeValidate v stamp rest (raiseTid maxTid a)))
    else some (s.goto t (.unlock none v.writeSet))
  -- the writes: data, version, lock
  | .write _ [] => some (s.goto t .idle)
  | .write tid (a :: rest) => some (s.copyRow t tid a rest)
  | .verify tid a rest =>
    some ((s.assert (tid > (s.word a.origRow).tid && (s.word a.origRow).lock)).goto t
      (.store tid a rest))
  | .store tid a rest => some ((s.setWord a.origRow ⟨tid, true⟩).goto t (.release tid a rest))
  | .release tid a rest =>
    some ((s.assert (s.word a.origRow).lock).goto t
      (.releaseStore tid a rest { s.word a.origRow with lock := false }))
  | .releaseStore tid a rest w => some ((s.setWord a.origRow w).goto t (.write tid rest))

/-- A transaction accesses a row at most once. -/
def siloStep (primaryKey : ρ → Nat) (preAbort noWait : Bool) (s : SiloState ρ V τ) :
    SiloLabel ρ V τ → Option (SiloState ρ V τ)
  | .begin t =>
    match s.pc t with
    | .idle => some (s.goto t (.running []))
    | _ => none
  | .getRow t row type =>
    match s.pc t with
    | .running accesses =>
      if row ∈ accesses.map (·.origRow) then none else some (s.goto t (.load accesses row type))
    | _ => none
  | .modify t rid data =>
    match s.pc t with
    | .running accesses =>
      some (s.goto t (.running (accesses.modify rid fun a => { a with data := data })))
    | _ => none
  | .finish t =>
    match s.pc t with
    | .running accesses =>
      some (s.goto t (startLocking preAbort ⟨readSet accesses, writeSet primaryKey accesses⟩))
    | _ => none
  | .rollback t =>
    match s.pc t with
    | .running _ => some (s.goto t .idle)
    | _ => none
  | .next t => siloNext preAbort noWait s t

/-- Rows as `Row_silo::init` leaves them, with any data, and no transaction. -/
def siloMachine (primaryKey : ρ → Nat) (preAbort noWait : Bool) (init : ρ → V) (τ : Type*)
    [DecidableEq τ] : Machine (SiloState ρ V τ) (SiloLabel ρ V τ) where
  init s := s = ⟨fun _ => ⟨0, false⟩, init, fun _ => 0, fun _ => .idle, 0, [], false⟩
  step := siloStep primaryKey preAbort noWait

end DBx1000.Silo
