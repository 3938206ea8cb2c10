import DBx1000.Library.Transition
import DBx1000.Occ.Row
import DBx1000.System.Manager

/-!
# OCC with central validation

`txn_man::get_row`, `txn_man::finish` and `OptCC::central_validate` without `PER_ROW_VALID`:
any number of threads, each with one transaction at a time. Both critical sections of
`central_validate`, the tests between them and every call of a `Row_occ` method are single
steps.

`hisStart`, `overlapping` and `commits` are ghosts: how long the history was when a
transaction started, the write sets that came to it from then on until the transaction
validated, and the committed transactions.
-/

namespace DBx1000.Occ

open Transition

variable {ρ V τ : Type*}

/-- A `set_ent`, without the list that it is on. -/
structure SetEnt (ρ τ : Type*) where
  tn : Nat
  txn : τ
  rows : List ρ
  deriving DecidableEq

/-- The read set of `get_rw_set`, -/
def rset (accesses : List (Access ρ V)) : List ρ :=
  (accesses.filter (·.type ≠ .WR)).map (·.origRow)

/-- and its write set. -/
def wset (accesses : List (Access ρ V)) : List ρ :=
  (accesses.filter (·.type = .WR)).map (·.origRow)

/-- `OptCC`; the heads of the lists are their newest entries. -/
structure OptCC (ρ τ : Type*) where
  history : List (SetEnt ρ τ)
  active : List (SetEnt ρ τ)
  activeLen : Nat
  tnc : Nat

/-- The local variables of `central_validate`. -/
structure CentralValidation (ρ V τ : Type*) where
  accesses : List (Access ρ V)
  finishTn : Nat
  finishActive : List (SetEnt ρ τ)
  his : List (SetEnt ρ τ)
  overlapping : List (SetEnt ρ τ)

/-- A committed transaction: what it read and what was committed before it validated. -/
structure Commit (ρ τ : Type*) where
  txn : τ
  startTs : Nat
  rset : List ρ
  overlapping : List (SetEnt ρ τ)
  deriving DecidableEq

inductive CentralPc (ρ V τ : Type*)
  | idle
  | running (accesses : List (Access ρ V))
  /-- Between the critical sections: the tests, -/
  | test (v : CentralValidation ρ V τ)
  /-- the writes of a valid transaction, and the second critical section. -/
  | write (v : CentralValidation ρ V τ) (rest : List (Access ρ V))
  | second (v : CentralValidation ρ V τ) (valid : Bool)
  /-- `cleanup(Abort)`, with the accesses that its loop has yet to return. -/
  | abort (rest : List (Access ρ V))

structure CentralState (ρ V τ : Type*) where
  clock : Clock τ
  occ : OptCC ρ τ
  row : ρ → RowOcc V τ
  startTs : τ → Nat
  /-- `central_validate` does not assign it. -/
  endTs : τ → Nat
  pc : τ → CentralPc ρ V τ
  hisStart : τ → Nat
  commits : List (Commit ρ τ)

inductive CentralLabel (ρ V τ : Type*)
  /-- `thread_t::run` draws `start_ts`. -/
  | begin (t : τ)
  | getRow (t : τ) (row : ρ) (type : AccessType)
  /-- The transaction writes to the local copy of its access number `rid`. -/
  | modify (t : τ) (rid : Nat) (data : V)
  /-- `finish(RCOK)` up to the end of the first critical section, and `finish(Abort)`. -/
  | finish (t : τ)
  | rollback (t : τ)
  | next (t : τ)

variable [DecidableEq ρ]

/-- `OptCC::test_valid`. -/
def testValid (set1 set2 : List ρ) : Bool := !set1.any fun x => set2.any fun y => x = y

/-- The walk over the history, from `finish_tn` down to `start_tn`. -/
def testHistory (his : List (SetEnt ρ τ)) (finishTn startTn : Nat) (rset : List ρ) : Bool :=
  -- the list falls: what is too young is skipped, and the walk ends at the first that is too old
  if finishTn > startTn then
    ((his.dropWhile (·.tn > finishTn)).takeWhile (·.tn > startTn)).all (testValid ·.rows rset)
  else true

/-- The loop over the transactions that were active at the first critical section. -/
def testActive (finishActive : List (SetEnt ρ τ)) (rset wset : List ρ) : Bool :=
  finishActive.all fun wact => testValid wact.rows rset && testValid wact.rows wset

/-- Whether `valid` holds at the label `final`. -/
def CentralValidation.valid (v : CentralValidation ρ V τ) (startTn : Nat) : Bool :=
  testHistory v.his v.finishTn startTn (rset v.accesses) &&
    testActive v.finishActive (rset v.accesses) (wset v.accesses)

variable [DecidableEq τ]

namespace OptCC

omit [DecidableEq ρ] in
/-- What the first critical section does for a transaction that writes. -/
def push (occ : OptCC ρ τ) (ent : SetEnt ρ τ) : OptCC ρ τ :=
  { occ with activeLen := occ.activeLen + 1, active := ent :: occ.active }

omit [DecidableEq ρ] in
/-- The second critical section takes the transaction from `active`, -/
def pop (occ : OptCC ρ τ) (t : τ) : OptCC ρ τ :=
  { occ with active := occ.active.eraseP (·.txn = t), activeLen := occ.activeLen - 1 }

omit [DecidableEq ρ] in
/-- and puts it on the history when it is valid. -/
def append (occ : OptCC ρ τ) (t : τ) (rows : List ρ) : OptCC ρ τ :=
  { occ with tnc := occ.tnc + 1, history := ⟨occ.tnc + 1, t, rows⟩ :: occ.history }

omit [DecidableEq ρ] in
/-- The second critical section; a transaction without writes skips it. -/
def leave (occ : OptCC ρ τ) (t : τ) (rows : List ρ) (valid : Bool) : OptCC ρ τ :=
  match rows, valid with
  | [], _ => occ
  | rows, true => (occ.pop t).append t rows
  | _, false => occ.pop t

end OptCC

namespace CentralState

def goto (s : CentralState ρ V τ) (t : τ) (p : CentralPc ρ V τ) : CentralState ρ V τ :=
  { s with pc := Function.update s.pc t p }

def setRow (s : CentralState ρ V τ) (x : ρ) (r : RowOcc V τ) : CentralState ρ V τ :=
  { s with row := Function.update s.row x r }

/-- The write sets that came to the history since the start of the transaction. -/
def overlapping (s : CentralState ρ V τ) (t : τ) : List (SetEnt ρ τ) :=
  s.occ.history.take (s.occ.history.length - s.hisStart t)

/-- The first critical section. -/
def enter (s : CentralState ρ V τ) (t : τ) (accesses : List (Access ρ V)) : CentralState ρ V τ :=
  let v : CentralValidation ρ V τ :=
    ⟨accesses, s.occ.tnc, s.occ.active.take s.occ.activeLen, s.occ.history, s.overlapping t⟩
  { s.goto t (.test v) with
    occ := if wset accesses = [] then s.occ else s.occ.push ⟨0, t, wset accesses⟩ }

/-- `row_t::return_row` for `cleanup(RCOK)`. -/
def returnRow (s : CentralState ρ V τ) (t : τ) (a : Access ρ V) : CentralState ρ V τ :=
  if returnType .RCOK a.type = .WR then
    s.setRow a.origRow ((s.row a.origRow).write false a.data (s.endTs t))
  else s

/-- The second critical section and the outcome. -/
def leave (s : CentralState ρ V τ) (t : τ) (v : CentralValidation ρ V τ) (valid : Bool) :
    CentralState ρ V τ :=
  let occ := s.occ.leave t (wset v.accesses) valid
  if valid then
    { s.goto t .idle with
      occ := occ, commits := s.commits ++ [⟨t, s.startTs t, rset v.accesses, v.overlapping⟩] }
  else { s.goto t (.abort v.accesses.reverse) with occ := occ }

end CentralState

/-- The next step of `finish` of thread `t`. -/
def centralNext (s : CentralState ρ V τ) (t : τ) : Option (CentralState ρ V τ) :=
  match s.pc t with
  | .idle | .running _ => none
  | .test v =>
    if v.valid (s.startTs t) then some (s.goto t (.write v v.accesses.reverse))
    else some (s.goto t (.second v false))
  | .write v [] => some (s.goto t (.second v true))
  | .write v (a :: rest) => some ((s.returnRow t a).goto t (.write v rest))
  | .second v valid => some (s.leave t v valid)
  | .abort [] => some (s.goto t .idle)
  | .abort (_ :: rest) => some (s.goto t (.abort rest))

def centralStep (cfg : TsConfig) (s : CentralState ρ V τ) :
    CentralLabel ρ V τ → Option (CentralState ρ V τ)
  | .begin t =>
    match s.pc t with
    | .idle =>
      let (ts, clock) := s.clock.getNextTs cfg t
      some { s.goto t (.running []) with
        clock := clock
        startTs := Function.update s.startTs t ts
        hisStart := Function.update s.hisStart t s.occ.history.length }
    | _ => none
  | .getRow t row type =>
    match s.pc t with
    | .running accesses =>
      match (s.row row).access (s.startTs t) with
      | none => some (s.goto t (.abort accesses.reverse))
      | some data => some (s.goto t (.running (accesses ++ [⟨type, row, data, data⟩])))
    | _ => none
  | .modify t rid data =>
    match s.pc t with
    | .running accesses =>
      some (s.goto t (.running (accesses.modify rid fun a => { a with data := data })))
    | _ => none
  | .finish t =>
    match s.pc t with
    | .running accesses => some (s.enter t accesses)
    | _ => none
  | .rollback t =>
    match s.pc t with
    | .running accesses => some (s.goto t (.abort accesses.reverse))
    | _ => none
  | .next t => centralNext s t

/-- Rows as `Row_occ::init` leaves them, `OptCC` as `OptCC::init` does, no transaction, and
threads that start with any `_curr_ts`. -/
def centralMachine (cfg : TsConfig) (currTs : τ → Nat) (init : ρ → V) :
    Machine (CentralState ρ V τ) (CentralLabel ρ V τ) where
  init s := s = ⟨.init currTs, ⟨[], [], 0, 0⟩, fun x => .init (init x), fun _ => 0, fun _ => 0,
    fun _ => .idle, fun _ => 0, []⟩
  step := centralStep cfg

end DBx1000.Occ
