import DBx1000.Library.Transition
import Mathlib.Algebra.Order.Ring.Int

/-!
# Epoch-based reclamation

Any number of threads register (`thread_init`), enter and leave critical sections,
retire nodes, try to collect (`try_gc`) and exit (`thread_destructor`). Every atomic
load, store, exchange and compare-and-swap of `epoch.c` is one step, and so is every
load and store of a `GC_NEXT` or `slot_node_t` field. A thread registers once: a thread
that starts again after its destructor ran is another thread.

The collection threshold `EBR_GC_THRESHOLD` is the parameter `threshold`. The values of the
`int` that counts epochs are kept as their 32 bits, and an overflow wraps around. The counters
of `epoch_exit` are numbers: only their remainders by the threshold matter, and the threshold
256 of the source divides 2^32. `clock`, `enterEpoch`, `enteredAt`, `retireEpoch` and `retiredAt` are ghosts: no
step reads them.
-/

namespace DBx1000.Epoch

open Transition

def ebrEpochCount : Nat := 3
def ebrMaxThreads : Nat := 256

/-- A `slot_node_t`; a pointer into `g_slot_nodes` is the position of its entry. -/
structure SlotNode where
  index : Nat
  next : Option Nat

variable {τ ν : Type*}

/-- A `thread_ctx_t`. -/
structure Ctx (ν : Type*) where
  inCritical : Bool
  localEpoch : Nat
  opCount : Nat
  epochTick : Nat
  slotIndex : Nat
  pending : Nat → Option ν

/-- A context after `memset(ctx, 0, ...)`. -/
def Ctx.zero : Ctx ν := ⟨false, 0, 0, 0, 0, fun _ => none⟩

/-- Where a thread is. Local variables of the functions are the arguments. -/
inductive Pc (τ ν : Type*)
  /-- `my_ctx` is NULL. -/
  | fresh
  /-- `free_slot_pop`, called by `thread_init`: the load of the head, the load of
  `old->next`, the CAS, and the load of `old->index` after it. -/
  | popHead
  | popNext (old : Nat)
  | popCas (old : Nat) (next : Option Nat)
  | popIndex (old : Nat)
  /-- The rest of `thread_init`: the fetch-and-add and the store to `g_contexts`. -/
  | fetchAdd
  | publish (idx : Nat)
  /-- `epoch_enter` after `thread_init`. -/
  | enter
  /-- Registered, between two calls, inside or outside a critical section. -/
  | ready
  /-- `ebr_retire` after its load of `g_epoch`: the store to `GC_NEXT(ptr)` and the push. -/
  | retireLink (ptr : ν) (cur : Nat)
  | retirePush (ptr : ν) (cur : Nat)
  /-- `epoch_exit` at a multiple of the threshold: load of `g_epoch`, store to
  `local_epoch`. -/
  | refresh
  | refreshStore (e : Nat)
  /-- `try_gc`: the two loads before the scan, the scan, the CAS, the exchange. -/
  | gcEpoch
  | gcCount (cur : Nat)
  | gcScan (cur n i : Nat)
  | gcCritical (cur n i : Nat) (ctx : τ)
  | gcLocal (cur n i : Nat) (ctx : τ)
  | gcCas (cur : Nat)
  | gcPop (cur : Nat)
  /-- The walk to the tail of `to_free` and the store of `local` behind it. -/
  | gcTail (cur : Nat) (toFree tail lcl : ν)
  | gcJoin (cur : Nat) (toFree tail lcl : ν)
  /-- `reclaim_list`. -/
  | reclaim (cur : Nat) (list : Option ν)
  | destroy (cur : Nat) (list : ν) (next : Option ν)
  /-- `free_slot_push`, called by `thread_destructor`: the store to `node->index`, the load
  of the head, the store to `node->next`, the CAS. -/
  | pushIndex
  | pushHead
  | pushLink (old : Option Nat)
  | pushCas (old : Option Nat)
  /-- The transfer loop of `thread_destructor` for slot `e`, and `gc_stack_push`. -/
  | drain (e : Nat) (node : Option ν)
  | stackHead (e : Nat) (node : ν) (next : Option ν)
  | stackLink (e : Nat) (node : ν) (next old : Option ν)
  | stackCas (e : Nat) (node : ν) (next old : Option ν)
  /-- The context has been freed. -/
  | dead
  deriving DecidableEq

structure State (τ ν : Type*) where
  epoch : Nat
  nThreads : Nat
  contexts : Nat → Option τ
  freeHead : Option Nat
  slotNodes : Nat → SlotNode
  retired : Nat → Option ν
  gcNext : ν → Option ν
  ctx : τ → Ctx ν
  pc : τ → Pc τ ν
  /-- `abort` was called. -/
  aborted : Bool
  /-- `ebr_retire` has stored its node in front of `pending`, over other fields of the
  context. Nothing is said about what comes after it. -/
  overrun : Bool
  destroyed : ν → Bool
  clock : Nat
  enterEpoch : τ → Nat
  enteredAt : τ → Nat
  retireEpoch : ν → Nat
  retiredAt : ν → Option Nat

/-- What a thread does next. In `next` the number is what the environment decides: the
content of a context that has been freed, or whether a weak CAS fails spuriously. -/
inductive Label (τ ν : Type*)
  /-- `epoch_enter` of a thread that is not registered yet. -/
  | register (t : τ)
  | epochEnter (t : τ)
  | epochExit (t : τ)
  | ebrRetire (t : τ) (ptr : ν)
  /-- The thread exits; pthread calls `thread_destructor`. -/
  | exit (t : τ)
  | next (t : τ) (env : Nat)

def Label.thread : Label τ ν → τ
  | .register t | .epochEnter t | .epochExit t | .ebrRetire t _ | .exit t | .next t _ => t

variable [DecidableEq τ] [DecidableEq ν]

def State.goto (s : State τ ν) (t : τ) (p : Pc τ ν) : State τ ν :=
  { s with pc := Function.update s.pc t p }

def State.setCtx (s : State τ ν) (t : τ) (c : Ctx ν) : State τ ν :=
  { s with ctx := Function.update s.ctx t c }

def State.setNext (s : State τ ν) (n : ν) (next : Option ν) : State τ ν :=
  { s with gcNext := Function.update s.gcNext n next }

/-- The store that announces a critical section. -/
def State.announce (s : State τ ν) (t : τ) : State τ ν :=
  { s.setCtx t { s.ctx t with inCritical := true } with
    enterEpoch := Function.update s.enterEpoch t s.epoch
    enteredAt := Function.update s.enteredAt t s.clock }

/-- The `int` with these 32 bits. -/
def signed (bits : Nat) : Int := if bits < 2 ^ 31 then bits else bits - 2 ^ 32

/-- `cur % EBR_EPOCH_COUNT` on C integers: it has the sign of `cur`. -/
def retireSlot (cur : Nat) : Int := (signed cur).tmod ebrEpochCount

theorem signed_of_lt {bits : Nat} (small : bits < 2 ^ 31) : signed bits = bits := if_pos small

/-- The slot of a node that is retired while the epoch is not negative. -/
theorem retireSlot_eq {cur : Nat} (small : cur < 2 ^ 31) :
    retireSlot cur = (cur % ebrEpochCount : Nat) := by
  rw [retireSlot, signed_of_lt small]
  exact Int.tmod_eq_emod_of_nonneg (Int.natCast_nonneg cur)

theorem retireSlot_lt (cur : Nat) : retireSlot cur < ebrEpochCount :=
  Int.tmod_lt_of_pos _ (by decide)

/-- The slot lies in `pending` unless the epoch is negative and not a multiple of three. -/
theorem retireSlot_nonneg_iff {cur : Nat} :
    0 ≤ retireSlot cur ↔ 0 ≤ signed cur ∨ (ebrEpochCount : Int) ∣ signed cur := by
  constructor
  · intro h
    by_contra! outside
    obtain ⟨below, rest⟩ := outside
    have flip : retireSlot cur = -(-signed cur).tmod ebrEpochCount := by
      rw [Int.neg_tmod, Int.neg_neg, retireSlot]
    have zero : retireSlot cur = 0 := by
      have up := Int.tmod_nonneg (ebrEpochCount : Int) (a := -signed cur) (by omega)
      omega
    exact rest (Int.dvd_of_tmod_eq_zero zero)
  · rintro (h | h)
    · exact Int.tmod_nonneg _ h
    · exact Int.le_of_eq (Int.tmod_eq_zero_of_dvd h).symm

/-- `((cur - 1) % 3 + 3) % 3` on C integers. -/
def rslot (cur : Nat) : Nat :=
  (((signed ((cur + (2 ^ 32 - 1)) % 2 ^ 32)).tmod ebrEpochCount + ebrEpochCount).tmod
    ebrEpochCount).toNat

/-- The slot that the winner of a small epoch collects is the one before. -/
theorem rslot_eq {cur : Nat} (small : cur < 2 ^ 31) : rslot cur = (cur + 2) % ebrEpochCount := by
  unfold rslot ebrEpochCount
  cases cur with
  | zero => rfl
  | succ c =>
    have back : (c + 1 + (2 ^ 32 - 1)) % 2 ^ 32 = c := by omega
    rw [back, signed_of_lt (by omega), Int.tmod_eq_emod_of_nonneg (Int.natCast_nonneg c),
      Int.tmod_eq_emod_of_nonneg (by omega)]
    omega

/-- `pending[slot] = head`. -/
def Ctx.setPending (c : Ctx ν) (slot : Nat) (head : Option ν) : Ctx ν :=
  { c with pending := Function.update c.pending slot head }

/-- `in_critical` and `local_epoch` as a scan reads them, from a context that may have
been freed. -/
def State.readCritical (s : State τ ν) (t : τ) (env : Nat) : Bool :=
  match s.pc t with
  | .dead => env != 0
  | _ => (s.ctx t).inCritical

def State.readLocal (s : State τ ν) (t : τ) (env : Nat) : Nat :=
  match s.pc t with
  | .dead => env
  | _ => (s.ctx t).localEpoch

/-- `reclaim_list` of the node lists that `try_gc` has taken. -/
def joinLists (cur : Nat) : Option ν → Option ν → Pc τ ν
  | toFree, none => .reclaim cur toFree
  | none, some lcl => .reclaim cur (some lcl)
  | some toFree, some lcl => .gcTail cur toFree toFree lcl

/-- The transfer loop goes on with `node`, and with the next slot when the list ends. -/
def State.drained (s : State τ ν) (t : τ) (e : Nat) : State τ ν :=
  let c := (s.ctx t).setPending e none
  if e + 1 < ebrEpochCount then (s.setCtx t c).goto t (.drain (e + 1) (c.pending (e + 1)))
  else (s.setCtx t c).goto t .dead

/-- The next atomic step of thread `t` inside the function it is in. -/
def resume (threshold : Nat) (s : State τ ν) (t : τ) (env : Nat) : Option (State τ ν) :=
  match s.pc t with
  | .fresh | .ready | .dead => none
  -- `free_slot_pop`; `env` says whether a weak exchange fails
  | .popHead =>
    match s.freeHead with
    | none => some (s.goto t .fetchAdd)
    | some old => some (s.goto t (.popNext old))
  | .popNext old => some (s.goto t (.popCas old (s.slotNodes old).next))
  | .popCas old next =>
    if s.freeHead = some old ∧ env = 0 then
      some { s.goto t (.popIndex old) with freeHead := next }
    else some (s.goto t .popHead)
  | .popIndex old => some (s.goto t (.publish (s.slotNodes old).index))
  -- `ebr_register` without a free slot
  | .fetchAdd =>
    if s.nThreads < ebrMaxThreads then
      some { s.goto t (.publish s.nThreads) with nThreads := s.nThreads + 1 }
    else some { s with nThreads := s.nThreads + 1, aborted := true }
  | .publish idx =>
    some { (s.setCtx t { s.ctx t with slotIndex := idx }).goto t .enter with
      contexts := Function.update s.contexts idx (some t) }
  | .enter => some ((s.announce t).goto t .ready)
  | .retireLink ptr cur =>
    -- with a negative slot the rest of the call is one step
    if retireSlot cur < 0 then some { s.goto t .ready with overrun := true }
    else
      let slot := (retireSlot cur).toNat
      some ((s.setNext ptr ((s.ctx t).pending slot)).goto t (.retirePush ptr cur))
  | .retirePush ptr cur =>
    let slot := (retireSlot cur).toNat
    some ((s.setCtx t ((s.ctx t).setPending slot (some ptr))).goto t .ready)
  -- `ebr_refresh_local`, with `try_gc` after every so many operations
  | .refresh => some (s.goto t (.refreshStore s.epoch))
  | .refreshStore e =>
    let c := { s.ctx t with localEpoch := e, opCount := (s.ctx t).opCount + 1 }
    if c.opCount % threshold = 0 then some ((s.setCtx t c).goto t .gcEpoch)
    else some ((s.setCtx t c).goto t .ready)
  | .gcEpoch => some (s.goto t (.gcCount s.epoch))
  | .gcCount cur => some (s.goto t (.gcScan cur s.nThreads 0))
  -- the scan over the slots, whose contexts may be gone
  | .gcScan cur n i =>
    if i < n then
      match s.contexts i with
      | none => some (s.goto t (.gcScan cur n (i + 1)))
      | some ctx => some (s.goto t (.gcCritical cur n i ctx))
    else some (s.goto t (.gcCas cur))
  | .gcCritical cur n i ctx =>
    if s.readCritical ctx env then some (s.goto t (.gcLocal cur n i ctx))
    else some (s.goto t (.gcScan cur n (i + 1)))
  | .gcLocal cur n i ctx =>
    if s.readLocal ctx env ≠ cur then some (s.goto t .ready)
    else some (s.goto t (.gcScan cur n (i + 1)))
  | .gcCas cur =>
    if s.epoch = cur then some { s.goto t (.gcPop cur) with epoch := (cur + 1) % 2 ^ 32 }
    else some (s.goto t .ready)
  -- the winner takes the stack and its own list, at any later time
  | .gcPop cur =>
    let lcl := (s.ctx t).pending (rslot cur)
    some { (s.setCtx t ((s.ctx t).setPending (rslot cur) none)).goto t
        (joinLists cur (s.retired (rslot cur)) lcl) with
      retired := Function.update s.retired (rslot cur) none }
  | .gcTail cur toFree tail lcl =>
    match s.gcNext tail with
    | some next => some (s.goto t (.gcTail cur toFree next lcl))
    | none => some (s.goto t (.gcJoin cur toFree tail lcl))
  | .gcJoin cur toFree tail lcl =>
    some ((s.setNext tail (some lcl)).goto t (.reclaim cur (some toFree)))
  | .reclaim _ none => some (s.goto t .ready)
  | .reclaim cur (some list) => some (s.goto t (.destroy cur list (s.gcNext list)))
  | .destroy cur list next =>
    some { s.goto t (.reclaim cur next) with
      destroyed := Function.update s.destroyed list true }
  | .pushIndex =>
    let i := (s.ctx t).slotIndex
    some { s.goto t .pushHead with
      slotNodes := Function.update s.slotNodes i { s.slotNodes i with index := i } }
  | .pushHead => some (s.goto t (.pushLink s.freeHead))
  | .pushLink old =>
    let i := (s.ctx t).slotIndex
    some { s.goto t (.pushCas old) with
      slotNodes := Function.update s.slotNodes i { s.slotNodes i with next := old } }
  | .pushCas old =>
    if s.freeHead = old ∧ env = 0 then
      some { s.goto t (.drain 0 ((s.ctx t).pending 0)) with freeHead := some (s.ctx t).slotIndex }
    else some (s.goto t .pushHead)
  | .drain e none => some (s.drained t e)
  | .drain e (some node) => some (s.goto t (.stackHead e node (s.gcNext node)))
  | .stackHead e node next => some (s.goto t (.stackLink e node next (s.retired e)))
  | .stackLink e node next old => some ((s.setNext node old).goto t (.stackCas e node next old))
  | .stackCas e node next old =>
    if s.retired e = old ∧ env = 0 then
      some { s.goto t (.drain e next) with retired := Function.update s.retired e (some node) }
    else some (s.goto t (.stackLink e node next (s.retired e)))

/-- `epoch_exit`: the store to `in_critical` and the local counter. -/
def leave (threshold : Nat) (s : State τ ν) (t : τ) : State τ ν :=
  let c := { s.ctx t with inCritical := false, epochTick := (s.ctx t).epochTick + 1 }
  (s.setCtx t c).goto t (if c.epochTick % threshold = 0 then .refresh else .ready)

/-- `ebr_retire` up to its load of `g_epoch`. -/
def retire (s : State τ ν) (t : τ) (ptr : ν) : State τ ν :=
  { s.goto t (.retireLink ptr s.epoch) with
    retireEpoch := Function.update s.retireEpoch ptr s.epoch
    retiredAt := Function.update s.retiredAt ptr (some s.clock) }

/-- The calls that a program may make: `epoch_enter` and `epoch_exit` are paired, a node
is retired once, and a thread exits outside critical sections. -/
def act (threshold : Nat) (s : State τ ν) : Label τ ν → Option (State τ ν)
  | .register t =>
    match s.pc t with
    | .fresh => some ((s.setCtx t Ctx.zero).goto t .popHead)
    | _ => none
  | .epochEnter t =>
    match s.pc t, (s.ctx t).inCritical with
    | .ready, false => some (s.announce t)
    | _, _ => none
  | .epochExit t =>
    match s.pc t, (s.ctx t).inCritical with
    | .ready, true => some (leave threshold s t)
    | _, _ => none
  | .ebrRetire t ptr =>
    match s.pc t, s.retiredAt ptr with
    | .ready, none => some (retire s t ptr)
    | _, _ => none
  | .exit t =>
    match s.pc t, (s.ctx t).inCritical with
    | .ready, false =>
      some { s.goto t .pushIndex with
        contexts := Function.update s.contexts (s.ctx t).slotIndex none }
    | _, _ => none
  | .next t env => resume threshold s t env

/-- The program does not go on. -/
def State.halted (s : State τ ν) : Bool := s.aborted || s.overrun

/-- A step, which takes one tick. -/
def step (threshold : Nat) (s : State τ ν) (a : Label τ ν) : Option (State τ ν) :=
  if s.halted then none else (act threshold s a).map fun s' => { s' with clock := s'.clock + 1 }

/-- The static initialisers: no thread has registered. -/
def initial : State τ ν where
  epoch := 0
  nThreads := 0
  contexts _ := none
  freeHead := none
  slotNodes _ := ⟨0, none⟩
  retired _ := none
  gcNext _ := none
  ctx _ := Ctx.zero
  pc _ := .fresh
  aborted := false
  overrun := false
  destroyed _ := false
  clock := 0
  enterEpoch _ := 0
  enteredAt _ := 0
  retireEpoch _ := 0
  retiredAt _ := none

def machine (threshold : Nat) (τ ν : Type*) [DecidableEq τ] [DecidableEq ν] :
    Machine (State τ ν) (Label τ ν) where
  init s := ∃ next, s = { initial with gcNext := next }
  step := step threshold

end DBx1000.Epoch
