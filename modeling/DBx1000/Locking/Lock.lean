import DBx1000.Library.Doubly
import DBx1000.System.Global

/-!
# The lock of a row

`Row_lock` keeps the owners of a row in a singly linked list and the waiters in a doubly
linked one; the entries move between the lists. The entries of a row are modelled as a
memory of their own, with the addresses that the allocator has handed out; which unused
address `get_entry` returns is decided by the caller of the model.

`lockGet` and `lockRelease` run under the latch of the row and are single steps. A failed
`ASSERT` stops the program; here it is recorded in `asserts` and the function goes on.
-/

namespace DBx1000

inductive Locking.LockType
  | lockEx
  | lockSh
  | lockNone
  deriving DecidableEq

/-- The lock that `row_t::get_row` asks for. -/
def AccessType.lockType : AccessType → Locking.LockType
  | RD | SCAN => .lockSh
  | WR | XP => .lockEx

namespace Locking

open LinkedList

/-- The values of `CC_ALG` with which the lock is used. -/
inductive CcAlg
  | noWait
  | waitDie
  | dlDetect
  deriving DecidableEq

structure Config where
  ccAlg : CcAlg
  gThreadCnt : Nat

abbrev Addr := Nat

variable {τ : Type*}

structure LockEntry (τ : Type*) where
  type : LockType
  txn : τ
  next : Option Addr
  prev : Option Addr

structure RowLock (τ : Type*) where
  lockType : LockType
  ownerCnt : Nat
  waiterCnt : Nat
  owners : Option Addr
  waitersHead : Option Addr
  waitersTail : Option Addr
  entry : Addr → LockEntry τ
  /-- The addresses that `get_entry` has returned and `return_entry` has not. -/
  inUse : Addr → Bool
  /-- No `ASSERT` has failed yet. -/
  asserts : Bool

namespace RowLock

/-- `Row_lock::init`. -/
def init (entry : Addr → LockEntry τ) : RowLock τ where
  lockType := .lockNone
  ownerCnt := 0
  waiterCnt := 0
  owners := none
  waitersHead := none
  waitersTail := none
  entry := entry
  inUse _ := false
  asserts := true

def next (l : RowLock τ) (en : Addr) : Option Addr := (l.entry en).next
def prev (l : RowLock τ) (en : Addr) : Option Addr := (l.entry en).prev

def setNext (l : RowLock τ) (en : Addr) (n : Option Addr) : RowLock τ :=
  { l with entry := Function.update l.entry en { l.entry en with next := n } }

def setPrev (l : RowLock τ) (en : Addr) (p : Option Addr) : RowLock τ :=
  { l with entry := Function.update l.entry en { l.entry en with prev := p } }

def check (l : RowLock τ) (b : Bool) : RowLock τ := { l with asserts := l.asserts && b }

/-! ### The macros of `helper.h`, on the lists of the lock -/

def stackPush (l : RowLock τ) (en : Addr) : RowLock τ :=
  { l.setNext en l.owners with owners := some en }

/-- `LIST_GET_HEAD`, with the head `en`. -/
def listGetHead (l : RowLock τ) (en : Addr) : RowLock τ :=
  -- the new head has nobody in front of it
  let l := { l with waitersHead := l.next en }
  let l := match l.waitersHead with
    | some head => l.setPrev head none
    | none => { l with waitersTail := none }
  -- the entry is on no list any more
  l.setNext en none

def listPutTail (l : RowLock τ) (en : Addr) : RowLock τ :=
  let l := (l.setNext en none).setPrev en none
  match l.waitersTail with
  | some tail => { (l.setPrev en (some tail)).setNext tail (some en) with waitersTail := some en }
  | none => { l with waitersHead := some en, waitersTail := some en }

def listInsertBefore (l : RowLock τ) (en new : Addr) : RowLock τ :=
  let l := (l.setNext new (some en)).setPrev new (l.prev en)
  let l := match l.prev en with
    | some p => l.setNext p (some new)
    | none => l
  l.setPrev en (some new)

def listRemove (l : RowLock τ) (en : Addr) : RowLock τ :=
  let l := match l.next en with
    | some n => l.setPrev n (l.prev en)
    | none => l
  match l.prev en with
  | some p => l.setNext p (l.next en)
  | none => l

/-! ### `Row_lock` -/

def conflictLock (l1 l2 : LockType) : Bool :=
  if l1 = .lockNone ∨ l2 = .lockNone then false
  else if l1 = .lockEx ∨ l2 = .lockEx then true
  else false

/-- `get_entry`, which returns the address `en`, and the stores of the type and the
transaction to the new entry. -/
def getEntry (l : RowLock τ) (en : Addr) (type : LockType) (txn : τ) : RowLock τ :=
  { l with
    inUse := Function.update l.inUse en true
    entry := Function.update l.entry en { l.entry en with type, txn } }

def returnEntry (l : RowLock τ) (en : Addr) : RowLock τ :=
  { l with inUse := Function.update l.inUse en false }

/-- What `lock_get` returns and leaves: `txnids` is its output for the deadlock detector. -/
structure GetResult (τ : Type*) where
  rc : RC
  lock : RowLock τ
  lockReady : τ → Bool
  txnids : List τ := []

section Operations

variable [DecidableEq τ]

/-- Whether `lock_get` cannot add the transaction to the owners. -/
def conflict (cfg : Config) (ts : τ → Nat) (l : RowLock τ) (type : LockType) (txn : τ) : Bool :=
  let conflict := conflictLock l.lockType type
  -- under WAIT_DIE a request that is older than the first waiter waits, too
  let conflict := match cfg.ccAlg, conflict, l.waitersHead with
    | .waitDie, false, some head => decide (ts txn < ts (l.entry head).txn)
    | _, conflict, _ => conflict
  -- and under DL_DETECT nobody overtakes
  if cfg.ccAlg = .dlDetect ∧ l.waitersHead ≠ none then true else conflict

/-- The transactions that the new waiter at the tail waits for, nearest waiters first. -/
def waitsFor (l : RowLock τ) (type : LockType) : List τ :=
  -- the walk starts at the waiter in front of the new one
  let waiters := walk l.prev l.waiterCnt (l.waitersTail.bind l.prev)
  let owners := walk l.next l.ownerCnt l.owners
  ((waiters.filter fun en => conflictLock type (l.entry en).type) ++
    (if conflictLock type l.lockType then owners else [])).map fun en => (l.entry en).txn

/-- `lock_get` with a conflict, under DL_DETECT: the transaction waits at the tail. -/
def waitAtTail (lockReady : τ → Bool) (l : RowLock τ) (type : LockType) (txn : τ) (new : Addr) :
    GetResult τ :=
  let l := (l.getEntry new type txn).listPutTail new
  let l := { l with waiterCnt := l.waiterCnt + 1 }
  let lockReady := Function.update lockReady txn false
  let l := l.check (l.waitersTail.any fun tail => (l.entry tail).txn = txn)
  let txnids := l.waitsFor type
  -- a waiter waits for somebody
  { rc := .WAIT, lock := l.check (0 < txnids.length), lockReady, txnids }

/-- Under WAIT_DIE: if no owner is older, the transaction waits in the order of timestamps. -/
def waitOrDie (ts : τ → Nat) (lockReady : τ → Bool) (l : RowLock τ) (type : LockType) (txn : τ)
    (new : Addr) : GetResult τ :=
  match seek l.next (fun en => ts (l.entry en).txn < ts txn) l.ownerCnt l.owners with
  -- an owner is older
  | some _ => { rc := .Abort, lock := l, lockReady }
  | none =>
    let l := l.getEntry new type txn
    -- in front of the first waiter that is not younger
    let en := seek l.next (fun en => ¬ ts txn < ts (l.entry en).txn) l.waiterCnt l.waitersHead
    let l := match en with
      | some en =>
        let l := l.listInsertBefore en new
        if some en = l.waitersHead then { l with waitersHead := some new } else l
      | none => l.listPutTail new
    let l := { l with waiterCnt := l.waiterCnt + 1 }
    { rc := .WAIT, lock := l, lockReady := Function.update lockReady txn false }

/-- Without a conflict the transaction joins the owners. -/
def joinOwners (cfg : Config) (lockReady : τ → Bool) (l : RowLock τ) (type : LockType) (txn : τ)
    (new : Addr) : GetResult τ :=
  let l := (l.getEntry new type txn).stackPush new
  let l := { l with ownerCnt := l.ownerCnt + 1, lockType := type }
  let l := l.check (cfg.ccAlg = .dlDetect → l.waitersHead = none)
  { rc := .RCOK, lock := l, lockReady }

/-- `lock_get`; `new` is the address that `get_entry` would return. -/
def lockGet (cfg : Config) (ts : τ → Nat) (lockReady : τ → Bool) (l : RowLock τ)
    (type : LockType) (txn : τ) (new : Addr) : GetResult τ :=
  let l := l.check (l.ownerCnt ≤ cfg.gThreadCnt ∧ l.waiterCnt < cfg.gThreadCnt)
  if l.conflict cfg ts type txn then
    match cfg.ccAlg with
    | .noWait => { rc := .Abort, lock := l, lockReady }
    | .dlDetect => l.waitAtTail lockReady type txn new
    | .waitDie => l.waitOrDie ts lockReady type txn new
  else l.joinOwners cfg lockReady type txn new

/-- The body of the loop of `lock_release`: the first waiter joins the owners. -/
def grantHead (l : RowLock τ) (lockReady : τ → Bool) (entry : Addr) : RowLock τ × (τ → Bool) :=
  let l := (l.listGetHead entry).stackPush entry
  let l := { l with ownerCnt := l.ownerCnt + 1, waiterCnt := l.waiterCnt - 1 }
  let l := l.check (lockReady (l.entry entry).txn = false)
  let lockReady := Function.update lockReady (l.entry entry).txn true
  ({ l with lockType := (l.entry entry).type }, lockReady)

/-- The loop, for at most `n` rounds. -/
def grant : Nat → RowLock τ → (τ → Bool) → RowLock τ × (τ → Bool)
  | n + 1, l, lockReady =>
    match l.waitersHead with
    | none => (l, lockReady)
    | some entry =>
      if conflictLock l.lockType (l.entry entry).type then (l, lockReady)
      else
        let (l, lockReady) := l.grantHead lockReady entry
        grant n l lockReady
  | 0, l, lockReady => (l, lockReady)

/-- The entry `en`, which is the one behind `prev`, leaves the list of the owners. -/
def unlinkOwner (l : RowLock τ) (prev : Option Addr) (en : Addr) : RowLock τ :=
  match prev with
  | some prev => l.setNext prev (l.next en)
  | none => { l with owners := l.next en }

/-- `lock_release` of an owner. -/
def removeOwner (l : RowLock τ) (prev : Option Addr) (en : Addr) : RowLock τ :=
  let l := (l.unlinkOwner prev en).returnEntry en
  let l := { l with ownerCnt := l.ownerCnt - 1 }
  if l.ownerCnt = 0 then { l with lockType := .lockNone } else l

/-- `lock_release` of a waiter. -/
def removeWaiter (l : RowLock τ) (en : Addr) : RowLock τ :=
  let l := l.listRemove en
  let l := { l with waitersHead := if some en = l.waitersHead then l.next en else l.waitersHead }
  let l := { l with waitersTail := if some en = l.waitersTail then l.prev en else l.waitersTail }
  let l := l.returnEntry en
  { l with waiterCnt := l.waiterCnt - 1 }

/-- The entry of the transaction leaves the list of the owners, or that of the waiters. -/
def removeEntry (l : RowLock τ) (txn : τ) : RowLock τ :=
  let mine en := decide ((l.entry en).txn = txn)
  match seekWithPrev l.next mine l.ownerCnt none l.owners with
  | (prev, some en) => l.removeOwner prev en
  | (_, none) =>
    match seek l.next mine l.waiterCnt l.waitersHead with
    -- the transaction is on neither list
    | none => l.check false
    | some en => l.removeWaiter en

def lockRelease (lockReady : τ → Bool) (l : RowLock τ) (txn : τ) : RowLock τ × (τ → Bool) :=
  let l := l.removeEntry txn
  let l := l.check (l.ownerCnt = 0 → l.lockType = .lockNone)
  -- a waiter that leaves may let those behind it in, too
  let (l, lockReady) := grant l.waiterCnt l lockReady
  (l.check ((l.owners = none) ↔ (l.ownerCnt = 0)), lockReady)

end Operations

end RowLock

end Locking

end DBx1000
