import Mathlib.Algebra.Order.Ring.Nat
import DBx1000.Library.Doubly
import DBx1000.Library.Transition
import DBx1000.System.Global

/-!
# Very lightweight locking

`VLLMan` keeps a queue of the transactions in the order in which they were begun, and each
row counts the read and the write accesses that queued transactions have to it. A
transaction whose accesses meet no others is free and is executed by its worker. A blocked
one is left in the queue: the worker that sees it at the front is to execute it.

Every critical section of `_mutex` and every execution is one step. A worker passes its
transaction to `vllMainLoop`; the same object may be passed again while it is still queued, and
after `finishTxn` has freed it, as `thread_t::run` does. What is in it then is what was in it
before, so the new accesses follow the old ones. No two workers use one object at the same time.
The accesses that the calls of `get_row` collect are decided by the label of the call.
-/

namespace DBx1000.Vll

open LinkedList Transition

/-! ### The counters of a row -/

/-- `Row_vll`. -/
structure RowVll where
  cs : Nat
  cx : Nat

namespace RowVll

/-- `insert_access`; the flag says that the access is blocked. -/
def insertAccess (r : RowVll) (type : AccessType) : RowVll × Bool :=
  if type = .RD then ({ r with cs := r.cs + 1 }, r.cx > 0)
  else ({ r with cx := r.cx + 1 }, r.cx + 1 > 1 || r.cs > 0)

/-- `remove_access`, where `none` is a failed assertion. -/
def removeAccess (r : RowVll) (type : AccessType) : Option RowVll :=
  if type = .RD then if r.cs > 0 then some { r with cs := r.cs - 1 } else none
  else if r.cx > 0 then some { r with cx := r.cx - 1 } else none

end RowVll

structure Access (ρ : Type*) where
  type : AccessType
  origRow : ρ

section Rows

variable {ρ : Type*} [DecidableEq ρ]

/-- The loop of `beginTxn`; the flag says that some access is blocked. -/
def insertAccesses : (ρ → RowVll) → List (Access ρ) → (ρ → RowVll) × Bool
  | row, [] => (row, false)
  | row, a :: accesses =>
    let (r, blocked) := (row a.origRow).insertAccess a.type
    let (row, others) := insertAccesses (Function.update row a.origRow r) accesses
    (row, blocked || others)

/-- The loop of `finishTxn`. -/
def removeAccesses : (ρ → RowVll) → List (Access ρ) → Option (ρ → RowVll)
  | row, [] => some row
  | row, a :: accesses =>
    ((row a.origRow).removeAccess a.type).bind fun r =>
      removeAccesses (Function.update row a.origRow r) accesses

end Rows

/-! ### The queue -/

structure TxnQEntry (τ : Type*) where
  prev : Option Nat
  next : Option Nat
  txn : Option τ

/-- The list of the entries; addresses below `fresh` have been allocated. -/
structure TxnQueue (τ : Type*) where
  entry : Nat → TxnQEntry τ
  fresh : Nat
  head : Option Nat
  tail : Option Nat

namespace TxnQueue

variable {τ : Type*}

def init : TxnQueue τ := ⟨fun _ => ⟨none, none, none⟩, 0, none, none⟩

def next (q : TxnQueue τ) (en : Nat) : Option Nat := (q.entry en).next
def prev (q : TxnQueue τ) (en : Nat) : Option Nat := (q.entry en).prev

def setNext (q : TxnQueue τ) (en : Nat) (n : Option Nat) : TxnQueue τ :=
  { q with entry := Function.update q.entry en { q.entry en with next := n } }

def setPrev (q : TxnQueue τ) (en : Nat) (p : Option Nat) : TxnQueue τ :=
  { q with entry := Function.update q.entry en { q.entry en with prev := p } }

/-- `getQEntry`. -/
def getQEntry (q : TxnQueue τ) : TxnQueue τ × Nat :=
  ({ q with entry := Function.update q.entry q.fresh ⟨none, none, none⟩, fresh := q.fresh + 1 },
    q.fresh)

/-- `LIST_PUT_TAIL`. -/
def listPutTail (q : TxnQueue τ) (en : Nat) : TxnQueue τ :=
  let q := (q.setNext en none).setPrev en none
  match q.tail with
  | some tail => { (q.setPrev en (some tail)).setNext tail (some en) with tail := some en }
  | none => { q with head := some en, tail := some en }

/-- `LIST_REMOVE_HT`, where `none` is a failed assertion. -/
def listRemoveHT (q : TxnQueue τ) (en : Nat) : Option (TxnQueue τ) :=
  let removed := match q.next en with
    | some n => some (q.setPrev n (q.prev en))
    | none => if some en = q.tail then some { q with tail := q.prev en } else none
  -- the tail first, then the head
  removed.bind fun q => match q.prev en with
    | some p => some (q.setNext p (q.next en))
    | none => if some en = q.head then some { q with head := q.next en } else none

end TxnQueue

/-! ### `VLLMan` and its workers -/

inductive TxnType
  | VLL_Blocked
  | VLL_Free
  deriving DecidableEq

/-- What VLL uses of a `txn_man`. -/
structure TxnMan (ρ : Type*) where
  accesses : List (Access ρ)
  vllTxnType : TxnType

/-- A transaction that was begun, with its entry, its accesses and what `beginTxn` marked it. -/
structure Begun (ρ τ : Type*) where
  entry : Nat
  txn : τ
  accesses : List (Access ρ)
  type : TxnType

/-- Where a worker is in `vllMainLoop`. -/
inductive Pc (τ : Type*)
  | idle
  /-- Before `_mutex`, with its own transaction. -/
  | loop (txn : τ)
  | execute (txn : τ) (entry : Nat)
  | finish (txn : τ) (entry : Nat)
  | executeFront (txn frontTxn : τ) (front : Nat)
  | finishFront (txn frontTxn : τ) (front : Nat)
  deriving DecidableEq

/-- The transaction that the worker is about to execute. -/
def Pc.executes {τ : Type*} : Pc τ → Option τ
  | .execute txn _ | .executeFront _ txn _ => some txn
  | _ => none

/-- The transaction with which the worker called `vllMainLoop`. -/
def Pc.txn {τ : Type*} : Pc τ → Option τ
  | .idle => none
  | .loop txn | .execute txn _ | .finish txn _ | .executeFront txn _ _ | .finishFront txn _ _ =>
    some txn

structure VllState (ρ τ ω : Type*) where
  row : ρ → RowVll
  txn : τ → TxnMan ρ
  queue : TxnQueue τ
  pc : ω → Pc τ
  /-- The transaction is in a call of `vllMainLoop`. -/
  running : τ → Bool
  /-- The transactions in the order in which they were executed. -/
  executed : List τ
  /-- The transactions that were begun and are not finished, in the order of `beginTxn`. -/
  queued : List (Begun ρ τ)

inductive VllLabel (ρ τ ω : Type*)
  | call (w : ω) (txn : τ) (accesses : List (Access ρ))
  | next (w : ω)

namespace VllState

variable {ρ τ ω : Type*} [DecidableEq ρ] [DecidableEq τ] [DecidableEq ω]

def goto (s : VllState ρ τ ω) (w : ω) (pc : Pc τ) : VllState ρ τ ω :=
  { s with pc := Function.update s.pc w pc }

def setType (s : VllState ρ τ ω) (txn : τ) (type : TxnType) : VllState ρ τ ω :=
  { s with txn := Function.update s.txn txn { s.txn txn with vllTxnType := type } }

/-- `beginTxn`, which returns the entry and its code. -/
def beginTxn (s : VllState ρ τ ω) (txn : τ) : VllState ρ τ ω × Nat × Nat :=
  -- `_txn_queue_size` stays 0, and the code 3 for a full queue would be overwritten below
  let s := s.setType txn .VLL_Free
  let accesses := (s.txn txn).accesses
  let (row, blocked) := insertAccesses s.row accesses
  let type := if blocked then .VLL_Blocked else .VLL_Free
  let s := { s.setType txn type with row := row }
  let (queue, entry) := s.queue.getQEntry
  let s := { s with
    queue := queue.listPutTail entry
    queued := s.queued ++ [⟨entry, txn, accesses, type⟩] }
  (s, entry, if type = .VLL_Blocked then 1 else 2)

/-- `execute`, where `none` is a failed assertion: an access that is no read has to be a write. -/
def execute (s : VllState ρ τ ω) (txn : τ) : Option (VllState ρ τ ω) :=
  if ∀ a ∈ (s.txn txn).accesses, a.type = .RD ∨ a.type = .WR then
    some { s with executed := s.executed ++ [txn] }
  else none

/-- `finishTxn`; `row_cnt` and the accesses of the freed object are as they were. -/
def finishTxn (s : VllState ρ τ ω) (txn : τ) (entry : Nat) : Option (VllState ρ τ ω) :=
  (removeAccesses s.row (s.txn txn).accesses).bind fun row =>
    (s.queue.listRemoveHT entry).map fun queue =>
      { s with
        row := row
        queue := queue
        queued := s.queued.eraseP (·.entry = entry) }

/-- The worker returns from `vllMainLoop`. -/
def leave (s : VllState ρ τ ω) (w : ω) (txn : τ) : VllState ρ τ ω :=
  { s.goto w .idle with running := Function.update s.running txn false }

/-- `front_txn`. -/
def frontTxn (s : VllState ρ τ ω) : Option τ := s.queue.head.bind fun front => (s.queue.entry front).txn

/-- One round of the loop up to the release of `_mutex`. -/
def iterate (s : VllState ρ τ ω) (w : ω) (txn : τ) : VllState ρ τ ω :=
  let ownTxn :=
    let (s, entry, ok) := s.beginTxn txn
    -- a blocked transaction stays in the queue until a worker sees it at the front
    if ok = 2 then s.goto w (.execute txn entry) else s.leave w txn
  match s.queue.head, s.frontTxn with
  | some front, some frontTxn =>
    -- the front of the queue goes first, and the own transaction waits for the next round
    if (s.txn frontTxn).vllTxnType = .VLL_Blocked then
      (s.setType frontTxn .VLL_Free).goto w (.executeFront txn frontTxn front)
    else ownTxn
  | _, _ => ownTxn

/-- A worker calls `vllMainLoop`, or goes on in it. -/
def step (s : VllState ρ τ ω) : VllLabel ρ τ ω → Option (VllState ρ τ ω)
  | .call w txn accesses =>
    if s.pc w = .idle ∧ s.running txn = false then
      some { s.goto w (.loop txn) with
        running := Function.update s.running txn true
        -- `row_cnt` is not reset, so the accesses are appended
        txn := Function.update s.txn txn
          { s.txn txn with accesses := (s.txn txn).accesses ++ accesses } }
    else none
  | .next w => match s.pc w with
    | .idle => none
    | .loop txn => some (s.iterate w txn)
    | .execute txn entry => (s.execute txn).map fun s => s.goto w (.finish txn entry)
    | .finish txn entry => (s.finishTxn txn entry).map fun s => s.leave w txn
    | .executeFront txn frontTxn front =>
      (s.execute frontTxn).map fun s => s.goto w (.finishFront txn frontTxn front)
    | .finishFront txn frontTxn front =>
      (s.finishTxn frontTxn front).map fun s => s.goto w (.loop txn)

end VllState

def vllMachine (ρ τ ω : Type*) [DecidableEq ρ] [DecidableEq τ] [DecidableEq ω] :
    Machine (VllState ρ τ ω) (VllLabel ρ τ ω) where
  init s := (∀ x, s.row x = ⟨0, 0⟩) ∧ (∀ t, (s.txn t).accesses = []) ∧ s.queue = .init ∧
    (∀ w, s.pc w = .idle) ∧ (∀ t, s.running t = false) ∧ s.executed = [] ∧ s.queued = []
  step s l := s.step l

end DBx1000.Vll
