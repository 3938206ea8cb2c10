import DBx1000.Library.BubbleSort
import DBx1000.System.Global
import Mathlib.Logic.Function.Basic

/-!
# YCSB transactions

`ycsb_txn_man::run_txn` under the algorithms for which `txn_man::get_row` gives a private copy
of a row or a version of it, with `row_t::get_row`, `row_t::return_row`, `cleanup` and what
`finish` does to the rows.

The memory of a row is a set of numbered `row_t`s. Number 0 is the one that the index leads to
and in which SILO, TICTOC and OCC have the data; under MVCC and HEKATON it is one of those that
can be behind a version. What the row managers and the validation decide is an answer from
outside: whether they abort, which version a read gets, which `row_t` a pre-write gets and
which versions are left then.
-/

namespace DBx1000.Ycsb

/-- The bytes of a `row_t`. -/
abbrev Data := Nat → BitVec 8

/-- `*(uint64_t *)(&data[fid * 10]) = 0`. -/
def writeField (fid : Nat) (data : Data) : Data := fun i =>
  if fid * 10 ≤ i ∧ i < fid * 10 + 8 then 0 else data i

/-- `CC_ALG`. -/
inductive Scheme
  | SILO
  | TICTOC
  | OCC
  | MVCC
  | HEKATON
  deriving DecidableEq

/-- `get_row` copies the row to memory of the transaction. -/
def Scheme.copies : Scheme → Bool
  | .SILO | .TICTOC | .OCC => true
  | .MVCC | .HEKATON => false

/-! ### Rows -/

/-- The `row_t`s of a row, the one with the latest version, those with versions that a read may
get, and that of a pending pre-write, which is none of them. -/
@[ext]
structure Row where
  memory : Nat → Data
  latest : Nat
  live : List Nat
  reserved : Option Nat
  latest_live : latest ∈ live
  reserved_not_live : ∀ b, reserved = some b → b ∉ live

namespace Row

/-- The data that the row has. -/
def data (r : Row) : Data := r.memory r.latest

def store (r : Row) (b : Nat) (data : Data) : Row :=
  { r with memory := Function.update r.memory b data }

/-- A `P_REQ`: the latest version is copied to the `row_t` that is reserved. -/
def prewrite (r : Row) (b : Nat) (live : List Nat) : Option Row :=
  if h : r.reserved = none ∧ r.latest ∈ live ∧ b ∉ live then
    some
      { memory := Function.update r.memory b (r.memory r.latest)
        latest := r.latest
        live := live
        reserved := some b
        latest_live := h.2.1
        reserved_not_live := fun _ is => Option.some.inj is ▸ h.2.2 }
  else none

/-- The pre-write is given up. -/
def release (r : Row) : Row := { r with reserved := none, reserved_not_live := nofun }

/-- The pre-write becomes the latest version. -/
def commit (r : Row) : Row :=
  match r.reserved with
  | none => r
  | some b =>
    { r with
      latest := b
      live := b :: r.live
      reserved := none
      latest_live := List.mem_cons_self
      reserved_not_live := nofun }

end Row

/-! ### Accesses -/

/-- The `data` of an `Access`: a copy of the row, or a `row_t` of the row. -/
inductive Local
  | copy (data : Data)
  | version (b : Nat)

structure Access (ρ : Type*) where
  type : AccessType
  origRow : ρ
  data : Local

structure TxnState (ρ : Type*) where
  rows : ρ → Row
  accesses : List (Access ρ)

/-- What the row manager decides about an access. -/
inductive Answer
  | abort
  | grant (b : Nat) (live : List Nat)
  deriving DecidableEq

section

variable {ρ : Type*} [DecidableEq ρ]

namespace TxnState

/-- `get_row` on a row whose manager does not abort; `none` for an answer that no manager gives.
Only an `RD` is an `R_REQ`. -/
def getRow (scheme : Scheme) (s : TxnState ρ) (x : ρ) (type : AccessType) (b : Nat)
    (live : List Nat) : Option (TxnState ρ) :=
  if scheme.copies then
    some { s with accesses := s.accesses ++ [⟨type, x, .copy ((s.rows x).memory 0)⟩] }
  else if type = .RD then
    -- a version that the manager still has
    if b ∈ (s.rows x).live then
      some { s with accesses := s.accesses ++ [⟨type, x, .version b⟩] }
    else none
  else
    ((s.rows x).prewrite b live).map fun r =>
      ⟨Function.update s.rows x r, s.accesses ++ [⟨type, x, .version b⟩]⟩

/-- The computation on a row: a write goes to the `row_t` that the index has led to. -/
def compute (s : TxnState ρ) (x : ρ) : AccessType → Option (TxnState ρ)
  -- a read adds up fields of the row and changes nothing
  | .RD | .SCAN => some s
  | .WR =>
    let r := s.rows x
    some { s with rows := Function.update s.rows x (r.store 0 (writeField 0 (r.memory 0))) }
  | .XP => none

end TxnState

/-! ### The end of a transaction -/

/-- `return_row` for an access, with the write that the validations of SILO and TICTOC do
themselves. -/
def returnRow (scheme : Scheme) (rc : RC) (a : Access ρ) (r : Row) : Row :=
  match scheme, a.data with
  | .SILO, .copy data | .TICTOC, .copy data | .OCC, .copy data =>
    if a.type = .WR ∧ rc = .RCOK then r.store 0 data else r
  -- the pre-write of a `SCAN` is neither committed nor given up
  | .MVCC, _ => if a.type = .WR then if rc = .RCOK then r.commit else r.release else r
  -- here it ends as that of a write
  | .HEKATON, _ => if a.type = .RD then r else if rc = .RCOK then r.commit else r.release
  | _, _ => r

/-- The loop over accesses. -/
def returnRows (scheme : Scheme) (rc : RC) (accesses : List (Access ρ)) (rows : ρ → Row) :
    ρ → Row :=
  accesses.foldl (fun rows a =>
    Function.update rows a.origRow (returnRow scheme rc a (rows a.origRow))) rows

/-- The order in which the rows are returned: SILO and TICTOC sort their write set, `cleanup`
begins with the last access, and `validate_hekaton` with the first one. -/
def returnOrder (scheme : Scheme) (primaryKey : ρ → Nat) (accesses : List (Access ρ)) :
    List (Access ρ) :=
  match scheme with
  | .SILO | .TICTOC =>
    BubbleSort.sort (fun a b => primaryKey a.origRow > primaryKey b.origRow)
      (accesses.filter (·.type = .WR))
  | .OCC | .MVCC => accesses.reverse
  | .HEKATON => accesses

/-- `finish`; MVCC has no validation. -/
def finish (scheme : Scheme) (primaryKey : ρ → Nat) (valid : Bool) (rc : RC) (s : TxnState ρ) :
    RC × (ρ → Row) :=
  let rc := if scheme = .MVCC ∨ rc = .RCOK ∧ valid then rc else .Abort
  (rc, returnRows scheme rc (returnOrder scheme primaryKey s.accesses) s.rows)

/-! ### `run_txn` -/

structure Request where
  rtype : AccessType
  key : Nat
  scanLen : Nat

/-- How often the loop of a request runs at most; `iteration` has 32 bits. -/
def Request.turns (req : Request) : Nat :=
  if req.rtype = .RD ∨ req.rtype = .WR then 1
  else if req.scanLen = 0 then 2 ^ 32 else req.scanLen

/-- The rows that `index_next` gives from an iteration on. -/
def walk (indexNext : Nat → Option ρ) : Nat → Nat → List ρ
  | 0, _ => []
  | n + 1, iteration =>
    match indexNext iteration with
    | none => []
    | some x => x :: walk indexNext n (iteration + 1)

/-- The rows of the loops over the requests and their iterations. -/
def visits (indexRead : Nat → ρ) (indexNext : Nat → Nat → Option ρ) (requests : List Request) :
    List (ρ × AccessType) :=
  requests.zipIdx.flatMap fun (req, rid) =>
    (indexRead req.key :: walk (indexNext rid) (req.turns - 1) 1).map fun x => (x, req.rtype)

/-- The loops. `get_row` never aborts under SILO and TICTOC. -/
def runLoop (scheme : Scheme) (primaryKey : ρ → Nat) (requestCnt : Nat) (valid : Bool) :
    List (ρ × AccessType) → List Answer → TxnState ρ → Option (RC × (ρ → Row))
  | [], _, s => some (finish scheme primaryKey valid .RCOK s)
  | _ :: _, [], _ => none
  -- the first refusal ends the transaction
  | _ :: _, .abort :: _, s =>
    if scheme = .SILO ∨ scheme = .TICTOC then none
    else some (finish scheme primaryKey valid .Abort s)
  | (x, type) :: rest, .grant b live :: answers, s =>
    (s.getRow scheme x type b live).bind fun s =>
      -- a transaction with one request computes nothing
      if requestCnt > 1 then
        (s.compute x type).bind (runLoop scheme primaryKey requestCnt valid rest answers)
      else runLoop scheme primaryKey requestCnt valid rest answers s

/-- `run_txn`: what it returns, and the rows after it. -/
def runTxn (scheme : Scheme) (primaryKey : ρ → Nat) (indexRead : Nat → ρ)
    (indexNext : Nat → Nat → Option ρ) (requests : List Request) (answers : List Answer)
    (valid : Bool) (rows : ρ → Row) : Option (RC × (ρ → Row)) :=
  runLoop scheme primaryKey requests.length valid (visits indexRead indexNext requests) answers
    ⟨rows, []⟩

end

end DBx1000.Ycsb
