import DBx1000.Library.Transition
import DBx1000.Occ.Row
import DBx1000.System.Manager

/-!
# OCC with per-row validation

`txn_man::get_row`, `txn_man::finish` and `OptCC::per_row_validate` under `PER_ROW_VALID`:
any number of threads, each with one transaction at a time. A call of a `Row_occ` method
that takes the latch waits while another thread holds it; every call is one step.

`log` and `failed` are ghosts: the committed transactions in the order in which they drew
`end_ts`, and whether an assertion has failed.
-/

namespace DBx1000.Occ

open Transition SerialOrder

variable {ρ V τ : Type*}

/-- Where a transaction is. `held` and `rest` are the accesses before and behind the index of
the loop over the sorted accesses, `lockCnt` is the length of `held` when it ends. -/
inductive PerRowPc (ρ V : Type*)
  | idle
  | running (accesses : List (Access ρ V))
  | latch (held rest : List (Access ρ V))
  | validate (held : List (Access ρ V)) (a : Access ρ V) (rest : List (Access ρ V))
  /-- `txn_man::cleanup`, with the accesses that its loop has yet to return. -/
  | cleanup (rc : RC) (accesses : List (Access ρ V)) (lockCnt : Nat) (rest : List (Access ρ V))
  | release (rest : List (Access ρ V))

structure PerRowState (ρ V τ : Type*) where
  clock : Clock τ
  row : ρ → RowOcc V τ
  startTs : τ → Nat
  endTs : τ → Nat
  pc : τ → PerRowPc ρ V
  log : List (Entry ρ V)
  failed : Bool

inductive PerRowLabel (ρ V τ : Type*)
  /-- `thread_t::run` draws `start_ts`. -/
  | begin (t : τ)
  | getRow (t : τ) (row : ρ) (type : AccessType)
  /-- The transaction writes to the local copy of its access number `rid`. -/
  | modify (t : τ) (rid : Nat) (data : V)
  /-- `finish(RCOK)` up to the locks, and `finish(Abort)`. -/
  | finish (t : τ)
  | rollback (t : τ)
  | next (t : τ)

/-- The loop of `cleanup`, which returns the rows from the last access on. -/
def PerRowPc.startCleanup (rc : RC) (accesses : List (Access ρ V)) (lockCnt : Nat) :
    PerRowPc ρ V :=
  .cleanup rc accesses lockCnt accesses.reverse

variable [DecidableEq ρ] [DecidableEq τ]

namespace PerRowState

def goto (s : PerRowState ρ V τ) (t : τ) (p : PerRowPc ρ V) : PerRowState ρ V τ :=
  { s with pc := Function.update s.pc t p }

def setRow (s : PerRowState ρ V τ) (x : ρ) (r : RowOcc V τ) : PerRowState ρ V τ :=
  { s with row := Function.update s.row x r }

def setLatch (s : PerRowState ρ V τ) (x : ρ) (l : Option τ) : PerRowState ρ V τ :=
  s.setRow x { s.row x with latch := l }

section

variable (s : PerRowState ρ V τ) (x y : ρ) (l : Option τ)

omit [DecidableEq τ] in
@[simp] theorem setLatch_data : ((s.setLatch x l).row y).data = (s.row y).data := by
  change (Function.update s.row x _ y).data = _
  rw [Function.update_apply]
  split
  · next e => rw [e]
  · rfl

omit [DecidableEq τ] in
@[simp] theorem setLatch_wts : ((s.setLatch x l).row y).wts = (s.row y).wts := by
  change (Function.update s.row x _ y).wts = _
  rw [Function.update_apply]
  split
  · next e => rw [e]
  · rfl

omit [DecidableEq τ] in
theorem setLatch_latch :
    ((s.setLatch x l).row y).latch = if y = x then l else (s.row y).latch := by
  change (Function.update s.row x _ y).latch = _
  rw [Function.update_apply]
  split <;> rfl

end

/-- The transaction passes validation and draws `end_ts`. -/
def commit (cfg : TsConfig) (s : PerRowState ρ V τ) (t : τ) (accesses : List (Access ρ V)) :
    PerRowState ρ V τ :=
  let (ts, clock) := s.clock.getTs cfg
  { s.goto t (.startCleanup .RCOK accesses accesses.length) with
    clock := clock
    endTs := Function.update s.endTs t ts
    log := s.log ++ [entry ts accesses] }

/-- `Row_occ::write`. -/
def write (s : PerRowState ρ V τ) (t : τ) (a : Access ρ V) : PerRowState ρ V τ :=
  { s.setRow a.origRow ((s.row a.origRow).write true a.data (s.endTs t)) with
    failed := s.failed || !(s.row a.origRow).writeAssert true (s.endTs t) }

/-- `row_t::return_row`. -/
def returnRow (s : PerRowState ρ V τ) (t : τ) (rc : RC) (a : Access ρ V) : PerRowState ρ V τ :=
  if returnType rc a.type = .WR then s.write t a else s

end PerRowState

/-- The next step of `finish` of thread `t`; `none` while a latch is not free. -/
def perRowNext (cfg : TsConfig) (s : PerRowState ρ V τ) (t : τ) : Option (PerRowState ρ V τ) :=
  match s.pc t with
  | .idle | .running _ => none
  -- all latches are held, and all rows are valid
  | .latch held [] => some (s.commit cfg t held)
  | .latch held (a :: rest) =>
    if (s.row a.origRow).latch = none then
      some ((s.setLatch a.origRow (some t)).goto t (.validate held a rest))
    else none
  | .validate held a rest =>
    if (s.row a.origRow).validate (s.startTs t) then some (s.goto t (.latch (held ++ [a]) rest))
    -- the row that is not valid is latched, too
    else some (s.goto t (.startCleanup .Abort (held ++ a :: rest) (held.length + 1)))
  -- the latches are given back behind the loop over all rows
  | .cleanup _ accesses lockCnt [] => some (s.goto t (.release (accesses.take lockCnt)))
  | .cleanup rc accesses lockCnt (a :: rest) =>
    some ((s.returnRow t rc a).goto t (.cleanup rc accesses lockCnt rest))
  | .release [] => some (s.goto t .idle)
  | .release (a :: rest) => some ((s.setLatch a.origRow none).goto t (.release rest))

/-- A transaction accesses a row at most once. -/
def perRowStep (cfg : TsConfig) (names : RowNames ρ) (s : PerRowState ρ V τ) :
    PerRowLabel ρ V τ → Option (PerRowState ρ V τ)
  | .begin t =>
    match s.pc t with
    | .idle =>
      let (ts, clock) := s.clock.getNextTs cfg t
      some { s.goto t (.running []) with
        clock := clock, startTs := Function.update s.startTs t ts }
    | _ => none
  | .getRow t row type =>
    match s.pc t with
    | .running accesses =>
      if (s.row row).latch = none ∧ row ∉ accesses.map (·.origRow) then
        match (s.row row).access (s.startTs t) with
        -- the row has been written since the start
        | none => some (s.goto t (.startCleanup .Abort accesses 0))
        | some data => some (s.goto t (.running (accesses ++ [⟨type, row, data, data⟩])))
      else none
    | _ => none
  | .modify t rid data =>
    match s.pc t with
    | .running accesses =>
      some (s.goto t (.running (accesses.modify rid fun a => { a with data := data })))
    | _ => none
  -- no latch is held yet
  | .finish t =>
    match s.pc t with
    | .running accesses => some (s.goto t (.latch [] (BubbleSort.sort names.later accesses)))
    | _ => none
  | .rollback t =>
    match s.pc t with
    | .running accesses => some (s.goto t (.startCleanup .Abort accesses 0))
    | _ => none
  | .next t => perRowNext cfg s t

/-- Rows as `Row_occ::init` leaves them, with any data, no transaction, and threads that start
with any `_curr_ts`. -/
def perRowMachine (cfg : TsConfig) (currTs : τ → Nat) (names : RowNames ρ) (init : ρ → V) :
    Machine (PerRowState ρ V τ) (PerRowLabel ρ V τ) where
  init s := s = ⟨.init currTs, fun x => .init (init x), fun _ => 0, fun _ => 0, fun _ => .idle, [], false⟩
  step := perRowStep cfg names

end DBx1000.Occ
