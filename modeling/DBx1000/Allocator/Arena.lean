import Mathlib.Algebra.Order.Ring.Nat
import DBx1000.Library.Region
import DBx1000.Library.Transition
import Mathlib.Data.Fin.Basic
import Mathlib.Logic.Function.Basic

/-!
# The allocator

`mem_alloc` with `THREAD_ALLOC` on and `NO_FREE` off: for each thread an arena for each block size,
which takes blocks off its list of free blocks or carves them from the buffer it has from `malloc`.
In front of a block stands a `FreeBlock`: its size, and behind that the next block of the list.

Memory is a word for each multiple of eight. What `malloc` returns, which arena is that of the
calling thread, how the two flags change and what is written to memory outside the allocator are
decided from outside; `malloc` returns memory that no one has, and a write goes to a block that the
writer has or to no buffer at all. A block is freed at most once. A run has no result when the
assertion in `get_size_id` fails.

Beside the program's state stand what `malloc` has returned, which arena carved which block, the
blocks that are in use and those that `Arena::free` got, with the size of the arena.
-/

namespace DBx1000.Allocator

open Transition

/-- `BlockSizes`. -/
def blockSizes : Fin 4 → Nat
  | 0 => 32
  | 1 => 64
  | 2 => 256
  | 3 => 1024

/-- `sizeof(FreeBlock)`. -/
def headerSize : Nat := 16

/-- `size` in `Arena::alloc`: block and header, up to a multiple of `MEM_ALLIGN`. -/
def carvedSize (k : Fin 4) : Nat := (blockSizes k + headerSize + 7) / 8 * 8

def bufferSize (k : Fin 4) : Nat := blockSizes k * 40960

/-- `get_size_id`; none of the sizes is the assertion that fails. -/
def getSizeId (size : Nat) : Option (Fin 4) := (List.finRange 4).find? fun i => size ≤ blockSizes i

structure Arena where
  buffer : Nat
  sizeInBuffer : Nat
  head : Nat

/-- `Arena::init`. -/
def Arena.init : Arena := ⟨0, 0, 0⟩

/-- What is left of the buffer. -/
def Arena.rest (arena : Arena) : Region := ⟨arena.buffer, arena.sizeInBuffer⟩

/-- A buffer, of the arena for which it was obtained. -/
structure Buffer where
  start : Nat
  arenaId : Nat
  sizeId : Fin 4
  deriving DecidableEq

def Buffer.region (b : Buffer) : Region := ⟨b.start, bufferSize b.sizeId⟩

/-- A block with its header, of the arena that carved it. -/
structure Carved where
  block : Nat
  arenaId : Nat
  sizeId : Fin 4
  deriving DecidableEq

def Carved.region (c : Carved) : Region := ⟨c.block, carvedSize c.sizeId⟩

/-- A block in use: what was asked for, whether one of the flags was set then, and the arena that
issued it unless it is from `malloc`. -/
structure Block where
  ptr : Nat
  size : Nat
  pool : Bool
  issuer : Option (Nat × Fin 4)
  deriving DecidableEq

/-- The block, with its header if it has one. -/
def Block.region (b : Block) : Region :=
  match b.issuer with
  | some (_, k) => ⟨b.ptr - headerSize, headerSize + blockSizes k⟩
  | none => ⟨b.ptr, b.size⟩

/-- `_arenas[arena_id][size_id]` and the words of memory, with the flags. -/
structure State where
  arenas : Nat × Fin 4 → Arena
  mem : Nat → Nat
  warmupFinish : Bool
  enableThreadMemPool : Bool
  buffers : List Buffer
  mallocs : List Region
  carved : List Carved
  live : List Block
  freed : List (Block × Fin 4)

inductive Label
  | flags (warmupFinish enableThreadMemPool : Bool)
  | alloc (arenaId size fresh : Nat)
  | free (arenaId : Nat) (b : Block)
  | write (address word : Nat)

namespace State

variable (s : State)

/-- Memory that no one has. -/
def Fresh (r : Region) : Prop :=
  0 < r.start ∧ r.start % 16 = 0 ∧ (∀ b ∈ s.buffers, r.Apart b.region) ∧ ∀ m ∈ s.mallocs, r.Apart m

instance (r : Region) : Decidable (s.Fresh r) := inferInstanceAs (Decidable (_ ∧ _))

/-- `ptr = malloc(size)`, for the caller of `alloc`. -/
def malloc (size fresh : Nat) (pool : Bool) : Option State :=
  if s.Fresh ⟨fresh, size⟩ then
    some { s with
      mallocs := ⟨fresh, size⟩ :: s.mallocs
      live := ⟨fresh, size, pool, none⟩ :: s.live }
  else none

/-- A new buffer, if the old one is too small for a block. -/
def refill (arenaId : Nat) (k : Fin 4) (fresh : Nat) : Option State :=
  let arena := s.arenas (arenaId, k)
  if arena.sizeInBuffer < carvedSize k then
    if s.Fresh ⟨fresh, bufferSize k⟩ then
      some { s with
        arenas := Function.update s.arenas (arenaId, k)
          { arena with buffer := fresh, sizeInBuffer := bufferSize k }
        buffers := ⟨fresh, arenaId, k⟩ :: s.buffers }
    else none
  else some s

/-- A block at the beginning of the buffer; `block->size` is the lower half of its word. -/
def carve (arenaId : Nat) (k : Fin 4) (size : Nat) : State :=
  let arena := s.arenas (arenaId, k)
  let block := arena.buffer
  { s with
    arenas := Function.update s.arenas (arenaId, k)
      { arena with
        buffer := block + carvedSize k
        sizeInBuffer := arena.sizeInBuffer - carvedSize k }
    -- `next` is not written before the block is freed
    mem := Function.update s.mem block (s.mem block / 2 ^ 32 * 2 ^ 32 + blockSizes k)
    carved := ⟨block, arenaId, k⟩ :: s.carved
    live := ⟨block + headerSize, size, true, some (arenaId, k)⟩ :: s.live }

/-- The first block of the list. -/
def take (arenaId : Nat) (k : Fin 4) (size : Nat) : State :=
  let arena := s.arenas (arenaId, k)
  let block := arena.head
  { s with
    arenas := Function.update s.arenas (arenaId, k) { arena with head := s.mem (block + 8) }
    live := ⟨block + headerSize, size, true, some (arenaId, k)⟩ :: s.live }

/-- `Arena::alloc`. -/
def arenaAlloc (arenaId : Nat) (k : Fin 4) (size fresh : Nat) : Option State :=
  if (s.arenas (arenaId, k)).head = 0 then
    (s.refill arenaId k fresh).map fun s => s.carve arenaId k size
  else some (s.take arenaId k size)

/-- `mem_alloc::alloc`. -/
def alloc (arenaId size fresh : Nat) : Option State :=
  let pool := s.warmupFinish || s.enableThreadMemPool
  if blockSizes 3 < size then s.malloc size fresh pool
  -- small blocks come from an arena once a flag is set
  else if pool then (getSizeId size).bind fun k => s.arenaAlloc arenaId k size fresh
  else s.malloc size fresh pool

/-- `Arena::free`, for the arena of the given size. -/
def arenaFree (arenaId : Nat) (k : Fin 4) (b : Block) : State :=
  let arena := s.arenas (arenaId, k)
  let block := b.ptr - headerSize
  { s with
    arenas := Function.update s.arenas (arenaId, k) { arena with head := block }
    -- `block->next`
    mem := Function.update s.mem (block + 8) arena.head
    live := s.live.erase b
    freed := (b, k) :: s.freed }

/-- `mem_alloc::free`: the size is read from the header. -/
def free (arenaId : Nat) (b : Block) : Option State :=
  if b ∈ s.live then
    (getSizeId (s.mem (b.ptr - headerSize) % 2 ^ 32)).map fun k => s.arenaFree arenaId k b
  else none

/-- A write that is not the allocator's. -/
def write (address word : Nat) : Option State :=
  -- to a block in use, or outside all buffers
  if (∃ b ∈ s.live, (⟨b.ptr, b.size⟩ : Region).Contains address) ∨
      ∀ b ∈ s.buffers, ¬ b.region.Contains address then
    some { s with mem := Function.update s.mem address word }
  else none

def step : Label → Option State
  | .flags warmupFinish enableThreadMemPool => some { s with warmupFinish, enableThreadMemPool }
  | .alloc arenaId size fresh => s.alloc arenaId size fresh
  | .free arenaId b => s.free arenaId b
  | .write address word => s.write address word

end State

/-- The beginning: both flags are off, and nothing has been obtained yet. -/
structure Initial (s : State) : Prop where
  arenas : ∀ p, s.arenas p = Arena.init
  warmup : s.warmupFinish = false
  enable : s.enableThreadMemPool = false
  buffers : s.buffers = []
  mallocs : s.mallocs = []
  carved : s.carved = []
  live : s.live = []
  freed : s.freed = []

def machine : Machine State Label where
  init := Initial
  step := State.step

end DBx1000.Allocator
