import DBx1000.System.Global
import Mathlib.Algebra.Order.Monoid.Unbundled.WithTop
import Mathlib.Data.List.Basic

/-!
# Rows under timestamp ordering

`Row_ts`: one copy of the row with the timestamps of its last write and read, and three queues of
requests. A pre-write stays in its queue until the write is done or rolled back; a read behind a
pending pre-write waits, and so does a write behind a waiting read or a pending pre-write. The calls
of `access` run under the latch. They give `none` where an assertion fails.

`UINT64_MAX` is `⊤`; what a queue entry has in `row` is the copy behind it, `none` for `NULL`.
-/

namespace DBx1000.Timestamp

structure TsReqEntry (V τ : Type) where
  txn : τ
  row : Option V
  ts : Nat
  deriving DecidableEq

structure RowTs (V τ : Type) where
  row : V
  wts : Nat
  rts : Nat
  minRts : WithTop Nat
  minPts : WithTop Nat
  readreq : List (TsReqEntry V τ)
  writereq : List (TsReqEntry V τ)
  prereq : List (TsReqEntry V τ)

/-- What a call does to `cur_row` of a transaction, and to the row: the reads that it serves and the
writes that it makes, with the timestamps of the requests. -/
inductive Act (V τ : Type)
  | read (txn : τ) (ts : Nat) (row : V)
  | write (ts : Nat) (row : V)
  deriving DecidableEq

/-- `debuffer_req` for a transaction: its first entry. -/
def debufferTxn {V τ : Type} [DecidableEq τ] (txn : τ) :
    List (TsReqEntry V τ) → Option (TsReqEntry V τ × List (TsReqEntry V τ))
  | [] => none
  | req :: queue =>
    if req.txn = txn then some (req, queue)
    else (debufferTxn txn queue).map fun found => (found.1, req :: found.2)

/-- `debuffer_req` for a timestamp: the entries up to it, put in front of `returnQueue` one after
another, and the queue that is left. -/
def debufferTs {V τ : Type} (ts : WithTop Nat) :
    (queue returnQueue : List (TsReqEntry V τ)) → List (TsReqEntry V τ) × List (TsReqEntry V τ)
  | [], returnQueue => (returnQueue, [])
  | req :: queue, returnQueue =>
    if (req.ts : WithTop Nat) ≤ ts then debufferTs ts queue (req :: returnQueue)
    else
      let found := debufferTs ts queue returnQueue
      (found.1, req :: found.2)

def calMin {V τ : Type} (queue : List (TsReqEntry V τ)) : WithTop Nat :=
  queue.foldl (fun newMin req => if (req.ts : WithTop Nat) < newMin then req.ts else newMin) ⊤

def younger {V τ : Type} (young : Option (TsReqEntry V τ)) (req : TsReqEntry V τ) :
    Option (TsReqEntry V τ) :=
  match young with
  | none => some req
  | some y => if req.ts < y.ts then some req else some y

/-- `young_req`: the first entry with the smallest timestamp. -/
def youngReq {V τ : Type} (queue : List (TsReqEntry V τ)) : Option (TsReqEntry V τ) :=
  queue.foldl younger none

namespace RowTs

variable {V τ : Type}

def init (τ : Type) (row : V) : RowTs V τ := ⟨row, 0, 0, ⊤, ⊤, [], [], []⟩

/-- `buffer_req` of a read, a write and a pre-write. -/
def bufferRead (r : RowTs V τ) (txn : τ) (ts : Nat) : RowTs V τ :=
  { r with
    readreq := ⟨txn, none, ts⟩ :: r.readreq
    minRts := if (ts : WithTop Nat) < r.minRts then ts else r.minRts }

def bufferWrite (r : RowTs V τ) (txn : τ) (ts : Nat) (row : V) : RowTs V τ :=
  { r with writereq := ⟨txn, some row, ts⟩ :: r.writereq }

def bufferPrewrite (r : RowTs V τ) (txn : τ) (ts : Nat) : RowTs V τ :=
  { r with
    prereq := ⟨txn, none, ts⟩ :: r.prereq
    minPts := if (ts : WithTop Nat) < r.minPts then ts else r.minPts }

/-- `_row->copy(row)`, and `wts`. -/
def put (r : RowTs V τ) (ts : Nat) (row : V) : RowTs V τ :=
  { r with row := row, wts := if r.wts < ts then ts else r.wts }

/-- The pre-writes of these requests are taken out, one after another. -/
def debufferAll [DecidableEq τ] : (reqs prereq : List (TsReqEntry V τ)) →
    Option (List (TsReqEntry V τ))
  | [], prereq => some prereq
  | req :: reqs, prereq => (debufferTxn req.txn prereq).bind fun found => debufferAll reqs found.2

/-- The ready reads are served. -/
def serve (r : RowTs V τ) (ready rest : List (TsReqEntry V τ)) : RowTs V τ × List (Act V τ) :=
  ({ r with
      readreq := rest
      rts := ready.foldl (fun rts req => if rts < req.ts then req.ts else rts) r.rts },
    ready.map fun req => .read req.txn req.ts r.row)

/-- The loop of `update_buffer`. -/
def updateLoop [DecidableEq τ] : (turns : Nat) → RowTs V τ → Option (RowTs V τ × List (Act V τ))
  | 0, _ => none
  | turns + 1, r =>
    let newMinPts := calMin r.prereq
    -- the assertion that the minimum does not fall
    if newMinPts < r.minPts then none
    else if ¬ r.minPts < newMinPts then some (r, [])
    else
      let r := { r with minPts := newMinPts }
      -- the reads that no pending pre-write precedes
      let (readyRead, rest) := debufferTs r.minPts r.readreq []
      if readyRead = [] then some ({ r with readreq := rest }, [])
      else
        let (r, reads) := r.serve readyRead rest
        let newMinRts := calMin r.readreq
        if ¬ r.minRts < newMinRts then some (r, reads)
        else
          let r := { r with minRts := newMinRts }
          -- the writes that no waiting read precedes
          let (readyWrite, rest) := debufferTs r.minRts r.writereq []
          if readyWrite = [] then some ({ r with writereq := rest }, reads)
          else do
            -- one of them is written, and the pre-writes of all are done
            let prereq ← debufferAll readyWrite r.prereq
            let young ← youngReq readyWrite
            let row ← young.row
            let (r, acts) ← updateLoop turns
              ({ r with writereq := rest, prereq := prereq }.put young.ts row)
            return (r, reads ++ .write young.ts row :: acts)

/-- A turn that is not the last one takes a write out of its queue. -/
def updateBuffer [DecidableEq τ] (r : RowTs V τ) : Option (RowTs V τ × List (Act V τ)) :=
  r.updateLoop (r.writereq.length + 1)

/-- `access`, without `TS_TWR`. -/
def access [DecidableEq τ] (r : RowTs V τ) (txn : τ) (ts : Nat) (type : TsType) (row : Option V) :
    Option (RC × RowTs V τ × List (Act V τ)) :=
  match type with
  -- a read: too late, behind a pre-write, or at once
  | .R_REQ =>
    if ts < r.wts then some (.Abort, r, [])
    else if r.minPts < ts then some (.WAIT, r.bufferRead txn ts, [])
    else some (.RCOK, { r with rts := if r.rts < ts then ts else r.rts }, [.read txn ts r.row])
  | .P_REQ =>
    if ts < r.rts then some (.Abort, r, [])
    else if ts < r.wts then some (.Abort, r, [])
    else some (.RCOK, r.bufferPrewrite txn ts, [])
  | .W_REQ => do
    let row ← row
    -- a write behind a pre-write or a waiting read stays in the queue
    if r.minPts < ts then return (.RCOK, r.bufferWrite txn ts row, [])
    else if r.minRts < ts then return (.RCOK, r.bufferWrite txn ts row, [])
    else
      let found ← debufferTxn txn r.prereq
      -- its pre-write is done, and those behind it may go on
      let (r, acts) ← ({ r with prereq := found.2 }.put ts row).updateBuffer
      return (.RCOK, r, .write ts row :: acts)
  | .XP_REQ => do
    let found ← debufferTxn txn r.prereq
    let (r, acts) ← { r with prereq := found.2 }.updateBuffer
    return (.RCOK, r, acts)

end RowTs

end DBx1000.Timestamp
