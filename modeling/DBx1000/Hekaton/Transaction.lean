import DBx1000.Hekaton.Row
import DBx1000.Library.Transition
import DBx1000.System.Manager
import Mathlib.Data.Fintype.Defs

/-!
# Hekaton transactions

`txn_man::get_row` and `txn_man::validate_hekaton` under `SERIALIZABLE`: any number of
threads, each with one transaction at a time. The methods of `Row_hekaton` and the draws of
timestamps are single steps; `minTs` is what `get_min_ts` returns.

`readBegin`, `versions` and `reads` are ghosts: the begin of the version that an `R_REQ`
returned, the begins of all versions that were committed, and what the committed
transactions have read.
-/

namespace DBx1000.Hekaton

open Transition

variable {ρ τ : Type*}

/-- An `Access`; `data` is `cur_row`. -/
structure Access (ρ : Type*) where
  type : AccessType
  origRow : ρ
  data : Option Nat
  readBegin : Nat

/-- The lists are the accesses before and behind the index of a loop of `validate_hekaton`. -/
inductive HekatonPc (ρ : Type*)
  | idle
  | running (accesses : List (Access ρ))
  /-- `Row_hekaton::access` has returned `Abort`. -/
  | refused (accesses : List (Access ρ))
  | prepare (commitTs : Nat) (done rest : List (Access ρ))
  | post (commitTs : Nat) (rc : RC) (rest : List (Access ρ))

/-- A committed transaction has read the version of the row that begins at `begin`. -/
structure ReadVersion (ρ : Type*) where
  row : ρ
  begin : Nat
  commitTs : Nat
  deriving DecidableEq

structure HekatonState (ρ τ : Type*) where
  clock : Clock τ
  row : ρ → RowHekaton
  thdTxnId : τ → Nat
  txnId : τ → Nat
  ts : τ → Nat
  pc : τ → HekatonPc ρ
  versions : ρ → List Nat
  reads : List (ReadVersion ρ)

inductive HekatonLabel (ρ τ : Type*)
  | begin (t : τ)
  | getRow (t : τ) (row : ρ) (type : AccessType) (minTs : WithTop Nat)
  /-- `finish`, up to the draw of `commit_ts`. -/
  | finish (t : τ) (rc : RC)
  | next (t : τ)

variable [DecidableEq ρ] [DecidableEq τ]

namespace HekatonState

def goto (s : HekatonState ρ τ) (t : τ) (p : HekatonPc ρ) : HekatonState ρ τ :=
  { s with pc := Function.update s.pc t p }

def setRow (s : HekatonState ρ τ) (x : ρ) (r : RowHekaton) : HekatonState ρ τ :=
  { s with row := Function.update s.row x r }

/-- The thread starts a transaction. -/
def start (cfg : TsConfig) (gThreadCnt : Nat) (thdId : τ → Nat) (s : HekatonState ρ τ) (t : τ) :
    HekatonState ρ τ :=
  let (ts, clock) := s.clock.getNextTs cfg t
  { s.goto t (.running []) with
    clock := clock
    txnId := Function.update s.txnId t (thdId t + s.thdTxnId t * gThreadCnt)
    thdTxnId := Function.update s.thdTxnId t (s.thdTxnId t + 1)
    ts := Function.update s.ts t ts }

/-- The draw of `commit_ts`. -/
def draw (cfg : TsConfig) (s : HekatonState ρ τ) (t : τ) (p : Nat → HekatonPc ρ) :
    HekatonState ρ τ :=
  let (ts, clock) := s.clock.getTs cfg
  { s.goto t (p ts) with clock := clock }

/-- All reads are prepared. -/
def commit (s : HekatonState ρ τ) (t : τ) (commitTs : Nat) (accesses : List (Access ρ)) :
    HekatonState ρ τ :=
  { s.goto t (.post commitTs .RCOK accesses) with
    reads := s.reads ++
      (accesses.filter (·.type = .RD)).map fun a => ⟨a.origRow, a.readBegin, commitTs⟩ }

/-- `post_process` of one access. -/
def postProcess (s : HekatonState ρ τ) (t : τ) (commitTs : Nat) (rc : RC) (a : Access ρ)
    (rest : List (Access ρ)) : HekatonState ρ τ :=
  { (s.setRow a.origRow ((s.row a.origRow).postProcess commitTs rc)).goto t
      (.post commitTs rc rest) with
    versions :=
      if rc = .RCOK then
        Function.update s.versions a.origRow (s.versions a.origRow ++ [commitTs])
      else s.versions }

end HekatonState

/-- `get_row` of a running transaction; a failed assertion stops the program. -/
def getRow (gThreadCnt : Nat) (s : HekatonState ρ τ) (t : τ) (accesses : List (Access ρ)) (row : ρ)
    (type : AccessType) (minTs : WithTop Nat) : Option (HekatonState ρ τ) :=
  if type = .RD then
    match (s.row row).read (s.ts t) with
    | .abort => some (s.goto t (.refused accesses))
    | .fails => none
    | .ok e => some (s.goto t (.running (accesses ++ [⟨type, row, e.row, e.begin⟩])))
  else
    match (s.row row).prewrite gThreadCnt minTs (s.txnId t) (s.ts t) with
    | none => some (s.goto t (.refused accesses))
    | some (r, data) => some ((s.setRow row r).goto t (.running (accesses ++ [⟨type, row, data, 0⟩])))

/-- The next step of `validate_hekaton` behind the draw. -/
def hekatonNext (s : HekatonState ρ τ) (t : τ) : Option (HekatonState ρ τ) :=
  match s.pc t with
  | .idle | .running _ | .refused _ => none
  | .prepare commitTs done [] => some (s.commit t commitTs done)
  -- reads are prepared in the order of the accesses; a `SCAN` is one here
  | .prepare commitTs done (a :: rest) =>
    if a.type = .WR then some (s.goto t (.prepare commitTs (done ++ [a]) rest))
    else if (s.row a.origRow).prepareRead (s.ts t) a.data commitTs = .RCOK then
      some (s.goto t (.prepare commitTs (done ++ [a]) rest))
    else some (s.goto t (.post commitTs .Abort (done ++ a :: rest)))
  -- pre-writes become versions or are taken back; a `SCAN` has one
  | .post _ _ [] => some (s.goto t .idle)
  | .post commitTs rc (a :: rest) =>
    if a.type = .RD then some (s.goto t (.post commitTs rc rest))
    else some (s.postProcess t commitTs rc a rest)

def hekatonStep (cfg : TsConfig) (gThreadCnt : Nat) (thdId : τ → Nat) (s : HekatonState ρ τ) :
    HekatonLabel ρ τ → Option (HekatonState ρ τ)
  | .begin t =>
    match s.pc t with
    | .idle => some (s.start cfg gThreadCnt thdId t)
    | _ => none
  | .getRow t row type minTs =>
    match s.pc t with
    | .running accesses => getRow gThreadCnt s t accesses row type minTs
    | _ => none
  | .finish t rc =>
    match s.pc t, rc with
    | .running accesses, .RCOK => some (s.draw cfg t fun ts => .prepare ts [] accesses)
    -- an abort draws a timestamp, too
    | .running accesses, .Abort => some (s.draw cfg t fun ts => .post ts .Abort accesses)
    | .refused accesses, .Abort => some (s.draw cfg t fun ts => .post ts .Abort accesses)
    | _, _ => none
  | .next t => hekatonNext s t

/-- Rows as `Row_hekaton::init` leaves them, no transaction, and threads that start with any
`_curr_ts`. -/
def hekatonMachine (cfg : TsConfig) (currTs : τ → Nat) (gThreadCnt : Nat) (thdId : τ → Nat)
    (ρ : Type*) [DecidableEq ρ] : Machine (HekatonState ρ τ) (HekatonLabel ρ τ) where
  init s := s = ⟨.init currTs, fun _ => .init, fun _ => 0, fun _ => 0, fun _ => 0, fun _ => .idle,
    fun _ => [0], []⟩
  step := hekatonStep cfg gThreadCnt thdId

namespace HekatonPc

/-- The rows with a pre-written version of the transaction. -/
def pendingRows : HekatonPc ρ → List ρ
  | .idle => []
  | .running rest | .refused rest | .post _ _ rest => (rest.filter (·.type ≠ .RD)).map (·.origRow)
  | .prepare _ done rest => ((done ++ rest).filter (·.type ≠ .RD)).map (·.origRow)

/-- The commit timestamp of a transaction that has not aborted. -/
def committing : HekatonPc ρ → Option Nat
  | .prepare commitTs _ _ | .post commitTs .RCOK _ => some commitTs
  | _ => none

end HekatonPc

/-- Where `prepare_read` finds the version with a transaction for its end, no other transaction
that pre-wrote the row is about to commit with a smaller timestamp. -/
def NoneSmaller (s : HekatonState ρ τ) : HekatonLabel ρ τ → Prop
  | .next t =>
    match s.pc t with
    | .prepare commitTs _ (a :: _) =>
      ∀ e ∈ (s.row a.origRow).find a.data (s.row a.origRow).hisLen (s.row a.origRow).hisLatest,
        a.type ≠ .WR → e.endTxn = true → ∀ u, u ≠ t → a.origRow ∈ (s.pc u).pendingRows →
          ∀ c ∈ (s.pc u).committing, commitTs ≤ c
    | _ => True
  | _ => True

instance [Fintype τ] (s : HekatonState ρ τ) (l : HekatonLabel ρ τ) : Decidable (NoneSmaller s l) := by
  cases l with
  | next t =>
    unfold NoneSmaller
    dsimp only
    split <;> infer_instance
  | begin t => exact isTrue trivial
  | getRow t row type minTs => exact isTrue trivial
  | finish t rc => exact isTrue trivial

end DBx1000.Hekaton
