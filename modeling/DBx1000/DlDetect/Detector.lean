import Mathlib.Algebra.Order.Ring.Nat
import DBx1000.Library.Cycle
import Mathlib.Data.Fintype.Basic
import Mathlib.Data.Fin.Basic
import Mathlib.Logic.Function.Basic

/-!
# Deadlock detection

`DL_detect` has an entry for every thread: the transaction that is registered for it, the
number of locks of that transaction and the transactions it waits for. `detect_cycle` is a
depth-first search from a registered transaction. While it goes back over the part of its
stack that is a loop, it picks out the transaction with the fewest locks, and that one is told
to abort.
-/

namespace DBx1000.DlDetect

open Relation

/-- The thread of a transaction, `get_thdid_from_txnid`. -/
def getThdidFromTxnid (V : Nat) [NeZero V] (txnid : BitVec 64) : Fin V :=
  Fin.ofNat V txnid.toNat

/-- The cast `(SInt32) txnid`, widened again for the comparison with an `int64_t`. -/
def asSInt32 (txnid : BitVec 64) : BitVec 64 := (txnid.setWidth 32).signExtend 64

/-- The dependency information of a thread. -/
structure DepThd where
  adj : List (BitVec 64)
  txnid : BitVec 64
  numLocks : Int

/-- Shared data of one detection. -/
structure DetectData (V : Nat) where
  visited : Fin V → Bool
  recStack : Fin V → Bool
  loop : Bool
  onloop : Bool
  loopstart : Int
  minLockNum : Int
  minTxnid : BitVec 64

section Search

variable {V : Nat} [NeZero V] (dependency : Fin V → DepThd)

namespace DetectData

/-- The marks on entry to a node. -/
def enter (d : DetectData V) (thd : Fin V) : DetectData V :=
  { d with
    visited := Function.update d.visited thd true
    recStack := Function.update d.recStack thd true }

/-- A back edge to `nextthd` has been seen. -/
def closeLoop (d : DetectData V) (nextthd : Fin V) : DetectData V :=
  { d with loop := true, onloop := true, loopstart := nextthd.val }

/-- The end of `nextNode`, after its loop. -/
def leave (d : DetectData V) (thd : Fin V) (txnid : BitVec 64) (lockNum : Int) : DetectData V :=
  let d := { d with recStack := Function.update d.recStack thd false }
  let d := if d.loop ∧ d.onloop ∧ lockNum < d.minLockNum then
      { d with minLockNum := lockNum, minTxnid := txnid } else d
  if (thd.val : Int) = d.loopstart then { d with onloop := false } else d

end DetectData

/-- The loop of `nextNode` over the copied adjacency list, where `next` is the recursive
call. -/
def forEdges (next : BitVec 64 → DetectData V → Option (Bool × DetectData V)) :
    List (BitVec 64) → DetectData V → Option (DetectData V)
  | [], d => some d
  | e :: rest, d =>
    let nextthd := getThdidFromTxnid V e
    if d.recStack nextthd = true ∧ asSInt32 e = (dependency nextthd).txnid then
      some (d.closeLoop nextthd)
    else if d.visited nextthd = false ∧ (dependency nextthd).txnid = e then
      match next e d with
      | none => none
      | some (true, d) => some d
      | some (false, d) => forEdges next rest d
    else forEdges next rest d

/-- `nextNode` with a bound on the depth of the recursion; `none` is a failed assertion or a
bound that is too small. -/
def nextNode : Nat → BitVec 64 → DetectData V → Option (Bool × DetectData V)
  | 0, _, _ => none
  | fuel + 1, txnid, d =>
    let thd := getThdidFromTxnid V txnid
    if d.visited thd = true then none
    else
      let d := d.enter thd
      let dep := dependency thd
      if dep.txnid ≠ txnid then
        some (false, { d with recStack := Function.update d.recStack thd false })
      else
        (forEdges dependency (nextNode fuel) dep.adj d).map fun d =>
          let d := d.leave thd txnid dep.numLocks
          (d.loop, d)

/-- The data with which a detection starts; `onloop` and `loopstart` are left as the allocator
returns them. -/
def initData (V : Nat) (onloop : Bool) (loopstart : Int) : DetectData V where
  visited := fun _ => false
  recStack := fun _ => false
  loop := false
  onloop := onloop
  loopstart := loopstart
  minLockNum := 1000
  minTxnid := -1

/-- `detect_cycle`: its result and the thread whose transaction gets its `lock_abort` set. -/
def detectCycle (g_no_dl : Bool) (onloop : Bool) (loopstart : Int) (txnid : BitVec 64) :
    Option (Nat × Option (Fin V)) :=
  if g_no_dl then some (0, none)
  else
    (nextNode dependency V txnid (initData V onloop loopstart)).map fun (cyclic, d) =>
      if cyclic then
        let thdToAbort := getThdidFromTxnid V d.minTxnid
        (1, if (dependency thdToAbort).txnid = d.minTxnid then some thdToAbort else none)
      else (0, none)

/-! ### What the detection is for -/

/-- The transaction is the one that is registered for its thread. -/
def Registered (txnid : BitVec 64) : Prop :=
  (dependency (getThdidFromTxnid V txnid)).txnid = txnid

instance (txnid : BitVec 64) : Decidable (Registered dependency txnid) :=
  inferInstanceAs (Decidable ((dependency (getThdidFromTxnid V txnid)).txnid = txnid))

/-- The edges that are not stale: `u` waits for the transaction registered for `v`. -/
def WaitsFor (u v : Fin V) : Prop :=
  ∃ e ∈ (dependency u).adj, getThdidFromTxnid V e = v ∧ Registered dependency e

/-- A cycle of the graph, all of it reached from `t`. -/
def CycleFrom (t : Fin V) (c : List (Fin V)) : Prop :=
  Cycle.IsCycle (WaitsFor dependency) c ∧ ∀ v ∈ c, ReflTransGen (WaitsFor dependency) t v

/-- The detection from `txnid` returns, it returns 1 if and only if a cycle is reached, and the
victim is then the transaction of such a cycle with the fewest locks. -/
def Exact (txnid : BitVec 64) : Prop :=
  ∀ onloop loopstart, ∃ result victim,
    detectCycle dependency false onloop loopstart txnid = some (result, victim) ∧
    (result = 0 ∨ result = 1) ∧
    (result = 1 ↔ ∃ c, CycleFrom dependency (getThdidFromTxnid V txnid) c) ∧
    (result = 0 → victim = none) ∧
    (result = 1 → ∃ c, CycleFrom dependency (getThdidFromTxnid V txnid) c ∧
      ∃ v ∈ c, victim = some v ∧
        ∀ w ∈ c, (dependency v).numLocks ≤ (dependency w).numLocks)

/-- The live ones of the edges lead neither to a cycle nor to the path. -/
def Clear (path : List (Fin V)) (edges : List (BitVec 64)) : Prop :=
  ∀ e ∈ edges, Registered dependency e →
    ∀ v, ReflTransGen (WaitsFor dependency) (getThdidFromTxnid V e) v →
      v ∉ path ∧ ¬ TransGen (WaitsFor dependency) v v

/-- A live edge from `u` to `v`, the edges before it being clear. -/
def Comes (path : List (Fin V)) (v u : Fin V) : Prop :=
  ∃ e before after, (dependency u).adj = before ++ e :: after ∧ Registered dependency e ∧
    getThdidFromTxnid V e = v ∧ Clear dependency path before

/-- A path to which a depth-first search from `t` comes before it has seen a cycle; its end
stands first. -/
structure OnSearch (t : Fin V) (path : List (Fin V)) : Prop where
  start : path.getLast? = some t
  nodup : path.Nodup
  chain : path.IsChain (Comes dependency path)

/-- Where a depth-first search from `t` that has seen no cycle meets an edge back into its
path, the comparison of 32 bits agrees with that of 64 bits. -/
def Agree (t : Fin V) : Prop :=
  ∀ u path, OnSearch dependency t (u :: path) →
    ∀ e before after, (dependency u).adj = before ++ e :: after →
      Clear dependency (u :: path) before → getThdidFromTxnid V e ∈ u :: path →
      (asSInt32 e = (dependency (getThdidFromTxnid V e)).txnid ↔ Registered dependency e)

end Search

/-- The transaction id is not changed by the cast to 32 bits. -/
def Fits (txnid : BitVec 64) : Prop := asSInt32 txnid = txnid

instance : DecidablePred Fits := fun txnid => inferInstanceAs (Decidable (asSInt32 txnid = txnid))

end DBx1000.DlDetect
