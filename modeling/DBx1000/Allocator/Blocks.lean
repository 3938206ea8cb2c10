import DBx1000.Allocator.Arena
import DBx1000.Library.Chain
import Mathlib.Data.List.Pairwise

/-!
# Blocks are kept apart

What the allocator promises about the blocks in use and about the pointers that reach
`Arena::free`, over whole runs.

## Main result

`blocks_kept_apart`: in every state of every run the promise holds exactly when each block that was
freed had been allocated with a size up to the largest block size while one of the flags was set.

## Proof strategy

The blocks that were carved never overlap, nor do they overlap what is left in the buffers; each
is in use or in one free list of its size, and the word in front of it still has its size. A free
reads that word. It is there for blocks that an arena issued, so such a block goes to a list of its
own size; before a block from `malloc` there is anything.
-/

namespace DBx1000.Allocator

open Transition

/-- The condition under which `alloc` turns to an arena. -/
def Block.Pooled (b : Block) : Prop := b.size ≤ blockSizes (.last 3) ∧ b.pool

instance (b : Block) : Decidable b.Pooled := inferInstanceAs (Decidable (_ ∧ _))

namespace State

variable (s : State)

/-- A region in a buffer that the arena has obtained. -/
def InBuffer (arenaId : Nat) (k : Fin 4) (r : Region) : Prop :=
  ∃ b ∈ s.buffers, b.arenaId = arenaId ∧ b.sizeId = k ∧ r.Inside b.region

/-- What the allocator promises: `Arena::free` gets pointers that an arena of the same size issued,
and blocks in use do not overlap; they lie in a buffer of the arena that carved them, or in what
`malloc` returned for them, and are as large as asked for. -/
structure Sound : Prop where
  freed : ∀ e ∈ s.freed, ∃ arenaId, e.1.issuer = some (arenaId, e.2)
  live_apart : s.live.Pairwise fun b b' => b.region.Apart b'.region
  issued : ∀ b ∈ s.live, ∀ arenaId k, b.issuer = some (arenaId, k) → b.size ≤ blockSizes k ∧
    ∃ c ∈ s.carved, c.block + headerSize = b.ptr ∧ c.sizeId = k ∧ s.InBuffer c.arenaId k b.region
  malloced : ∀ b ∈ s.live, b.issuer = none → b.region ∈ s.mallocs

/-! ### Free lists -/

/-- A pointer, `NULL` being none. -/
def toPtr (word : Nat) : Option Nat := if word = 0 then none else some word

def next (block : Nat) : Option Nat := toPtr (s.mem (block + 8))

def heads (p : Nat × Fin 4) : Option Nat := toPtr (s.arenas p).head

/-- The block behind a header is in use. -/
def InUse (block : Nat) : Prop := ∃ b ∈ s.live, b.issuer ≠ none ∧ b.ptr = block + headerSize

instance (block : Nat) : Decidable (s.InUse block) := inferInstanceAs (Decidable (∃ _ ∈ _, _))

/-- The headers of the blocks in use, each at its own place. -/
def hand (block : Nat) : Option Nat := if s.InUse block then some block else none

/-- What stands behind a block in use. -/
def Held (b : Block) : Prop :=
  match b.issuer with
  | some (_, k) =>
    b.size ≤ blockSizes k ∧ ∃ c ∈ s.carved, c.block + headerSize = b.ptr ∧ c.sizeId = k
  | none => (⟨b.ptr, b.size⟩ : Region) ∈ s.mallocs

/-- The invariant, with the free blocks of each arena. -/
structure Inv (lists : Nat × Fin 4 → List Nat) : Prop where
  free : LinkedList.Apart s.next s.heads s.hand lists
  listed : ∀ p, ∀ x ∈ lists p, ∃ c ∈ s.carved, c.block = x ∧ c.sizeId = p.2
  held : ∀ b ∈ s.live, s.Held b
  live_apart : s.live.Pairwise fun b b' => b.region.Apart b'.region
  carved_apart : s.carved.Pairwise fun c c' => c.region.Apart c'.region
  carved_in : ∀ c ∈ s.carved, 0 < c.block ∧ s.InBuffer c.arenaId c.sizeId c.region
  carved_size : ∀ c ∈ s.carved, s.mem c.block % 2 ^ 32 = blockSizes c.sizeId
  rest_in : ∀ p, 0 < (s.arenas p).sizeInBuffer →
    0 < (s.arenas p).buffer ∧ s.InBuffer p.1 p.2 (s.arenas p).rest
  rest_carved : ∀ p, 0 < (s.arenas p).sizeInBuffer → ∀ c ∈ s.carved,
    (s.arenas p).rest.Apart c.region
  buffers_apart : s.buffers.Pairwise fun b b' => b.region.Apart b'.region
  mallocs_apart : ∀ b ∈ s.buffers, ∀ m ∈ s.mallocs, b.region.Apart m
  freed : ∀ e ∈ s.freed, ∃ arenaId, e.1.issuer = some (arenaId, e.2)

end State

/-! ### Sizes -/

theorem blockSizes_pos (k : Fin 4) : 0 < blockSizes k := by
  revert k
  decide

theorem blockSizes_le (k : Fin 4) : headerSize + blockSizes k ≤ carvedSize k := by
  revert k
  decide

theorem carvedSize_le (k : Fin 4) : carvedSize k ≤ bufferSize k := by
  revert k
  decide

theorem blockSizes_lt (k : Fin 4) : blockSizes k < 2 ^ 32 := by
  revert k
  decide

theorem getSizeId_blockSizes (k : Fin 4) : getSizeId (blockSizes k % 2 ^ 32) = some k := by
  revert k
  decide

theorem le_of_getSizeId {size : Nat} {k : Fin 4} (is : getSizeId size = some k) :
    size ≤ blockSizes k := by
  simpa using List.find?_some is

/-- The words of the header are in the block. -/
theorem Carved.contains (c : Carved) {i : Nat} (lt : i < headerSize) :
    c.region.Contains (c.block + i) := by
  have large := blockSizes_le c.sizeId
  exact ⟨Nat.le_add_right _ _, Nat.add_lt_add_left (show i < carvedSize c.sizeId by omega) c.block⟩

namespace State

variable {s : State} {lists : Nat × Fin 4 → List Nat}

theorem hand_eq {block block' : Nat} :
    s.hand block = some block' ↔ block = block' ∧ s.InUse block := by
  unfold hand
  split
  · next used => simp [used]
  · next free => simp [free]

theorem hand_congr {s' : State} (same : ∀ block, s'.InUse block ↔ s.InUse block) :
    s'.hand = s.hand := funext fun block => if_congr (same block) rfl rfl

theorem InBuffer.mono {s' : State} {arenaId : Nat} {k : Fin 4} {r r' : Region}
    (h : s.InBuffer arenaId k r) (part : r'.Inside r) (more : s.buffers ⊆ s'.buffers) :
    s'.InBuffer arenaId k r' := by
  obtain ⟨b, mem, owner, size, inside⟩ := h
  exact ⟨b, more mem, owner, size, part.trans inside⟩

namespace Inv

variable (inv : s.Inv lists)

include inv

/-- A block that an arena issued lies, with its header, in what the arena carved for it. -/
theorem carved_of_live {b : Block} (mem : b ∈ s.live) {arenaId : Nat} {k : Fin 4}
    (is : b.issuer = some (arenaId, k)) :
    ∃ c ∈ s.carved, c.block + headerSize = b.ptr ∧ c.sizeId = k ∧ b.region.Inside c.region := by
  have held := inv.held b mem
  unfold Held at held
  rw [is] at held
  obtain ⟨-, c, carved, at_ptr, size⟩ := held
  refine ⟨c, carved, at_ptr, size, ?_⟩
  have large := blockSizes_le k
  subst size
  simp only [Block.region, is, Carved.region, Region.Inside, ← at_ptr]
  omega

theorem malloc_of_live {b : Block} (mem : b ∈ s.live) (is : b.issuer = none) :
    b.region ∈ s.mallocs := by
  have held := inv.held b mem
  unfold Held at held
  rw [is] at held
  rw [Block.region, is]
  exact held

theorem sound : s.Sound where
  freed := inv.freed
  live_apart := inv.live_apart
  issued b mem arenaId k is := by
    have held := inv.held b mem
    unfold Held at held
    rw [is] at held
    obtain ⟨c, carved, at_ptr, rfl, part⟩ := inv.carved_of_live mem is
    exact ⟨held.1, c, carved, at_ptr, rfl,
      (inv.carved_in c carved).2.mono part (List.Subset.refl _)⟩
  malloced _ mem is := inv.malloc_of_live mem is

theorem carved_ne {c c' : Carved} (mem : c ∈ s.carved) (mem' : c' ∈ s.carved)
    (ne : c.block ≠ c'.block) : c.region.Apart c'.region := by
  have symm : Std.Symm fun c c' : Carved => c.region.Apart c'.region := ⟨fun _ _ h => h.symm⟩
  exact inv.carved_apart.forall mem mem' fun e => ne (congrArg Carved.block e)

theorem buffers_ne {b b' : Buffer} (mem : b ∈ s.buffers) (mem' : b' ∈ s.buffers) (ne : b ≠ b') :
    b.region.Apart b'.region := by
  have symm : Std.Symm fun b b' : Buffer => b.region.Apart b'.region := ⟨fun _ _ h => h.symm⟩
  exact inv.buffers_apart.forall mem mem' ne

/-- What malloc returned for a block is apart from everything in the buffers. -/
theorem malloc_apart {m : Region} (mem : m ∈ s.mallocs) {arenaId : Nat} {k : Fin 4} {r : Region}
    (inside : s.InBuffer arenaId k r) : r.Apart m := by
  obtain ⟨b, buffer, -, -, part⟩ := inside
  exact (inv.mallocs_apart b buffer m mem).inside part

/-- A carved block that is not in use overlaps no block in use. -/
theorem apart_of_free {c : Carved} (mem : c ∈ s.carved) (free : ¬ s.InUse c.block) {b : Block}
    (live : b ∈ s.live) : c.region.Apart b.region := by
  cases is : b.issuer with
  | none => exact inv.malloc_apart (inv.malloc_of_live live is) (inv.carved_in c mem).2
  | some issuer =>
    obtain ⟨c', mem', at_ptr, -, part⟩ := inv.carved_of_live live is
    have ne : c.block ≠ c'.block := fun e =>
      free ⟨b, live, by rw [is]; exact nofun, by rw [e]; exact at_ptr.symm⟩
    exact ((inv.carved_ne mem mem' ne).symm.inside part).symm

/-! ### Writes of the program -/

/-- A write to a block in use, or to no buffer, does not change a header. -/
theorem header_kept {address : Nat}
    (allowed : (∃ b ∈ s.live, (⟨b.ptr, b.size⟩ : Region).Contains address) ∨
      ∀ b ∈ s.buffers, ¬ b.region.Contains address) {c : Carved} (mem : c ∈ s.carved) :
    ¬ (⟨c.block, headerSize⟩ : Region).Contains address := by
  rintro ⟨from_block, lt⟩
  obtain ⟨i, rfl⟩ := Nat.exists_eq_add_of_le from_block
  -- the address would be in a carved block
  have has := c.contains (Nat.lt_of_add_lt_add_left lt)
  obtain ⟨buffer, buffer_mem, -, -, part⟩ := (inv.carved_in c mem).2
  rcases allowed with ⟨b, live, payload⟩ | outside
  · cases is : b.issuer with
    | none =>
      -- memory of malloc is apart from all buffers
      have apart := inv.malloc_apart (inv.malloc_of_live live is) (inv.carved_in c mem).2
      rw [Block.region, is] at apart
      exact apart.not_contains has payload
    | some issuer =>
      obtain ⟨arenaId, k⟩ := issuer
      obtain ⟨c', mem', at_ptr, size, -⟩ := inv.carved_of_live live is
      have held := inv.held b live
      unfold Held at held
      rw [is] at held
      have fits := held.1
      have large' := blockSizes_le k
      by_cases same : c.block = c'.block
      · -- behind the header of the block itself
        have behind : c.block + headerSize ≤ c.block + i := by
          rw [← at_ptr, ← same] at payload
          exact payload.1
        exact Nat.not_le_of_lt lt behind
      · -- another block of an arena is apart from this one
        refine (inv.carved_ne mem mem' same).not_contains has ⟨?_, ?_⟩
        · exact Nat.le_trans (by rw [← at_ptr]; exact Nat.le_add_right _ _) payload.1
        · refine Nat.lt_of_lt_of_le payload.2 ?_
          change b.ptr + b.size ≤ c'.block + carvedSize c'.sizeId
          rw [size, ← at_ptr]
          omega
  · exact outside buffer buffer_mem (part.contains has)

theorem of_write {address word : Nat} {s' : State} (step : s.write address word = some s') :
    s'.Inv lists := by
  unfold State.write at step
  split at step
  · next allowed =>
    cases step
    have elsewhere {c : Carved} (mem : c ∈ s.carved) {i : Nat} (lt : i < headerSize) :
        c.block + i ≠ address := by
      rintro rfl
      exact inv.header_kept allowed mem ⟨Nat.le_add_right _ _, Nat.add_lt_add_left lt c.block⟩
    exact
      { inv with
        free := inv.free.congr fun p x mem => by
          obtain ⟨c, carved, rfl, -⟩ := inv.listed p x mem
          exact congrArg toPtr (Function.update_of_ne (elsewhere carved (by decide)) ..)
        carved_size := fun c mem => by
          rw [← inv.carved_size c mem]
          exact congrArg (· % 2 ^ 32)
            (Function.update_of_ne (elsewhere mem (i := 0) (by decide)) ..) }
  · cases step

/-! ### Memory from `malloc` -/

/-- What `malloc` returns is apart from all blocks in use. -/
theorem fresh_apart {r : Region} (fresh : s.Fresh r) {b : Block} (live : b ∈ s.live) :
    r.Apart b.region := by
  obtain ⟨-, -, buffers, mallocs⟩ := fresh
  cases is : b.issuer with
  | none => exact mallocs _ (inv.malloc_of_live live is)
  | some issuer =>
    obtain ⟨c, carved, -, -, part⟩ := inv.carved_of_live live is
    obtain ⟨buffer, mem, -, -, part'⟩ := (inv.carved_in c carved).2
    exact ((buffers buffer mem).symm.inside (part.trans part')).symm

theorem of_malloc {size fresh : Nat} {pool : Bool} {s' : State}
    (step : s.malloc size fresh pool = some s') : s'.Inv lists := by
  unfold State.malloc at step
  split at step
  · next new =>
    cases step
    -- no block of an arena changes hands
    have hands : State.hand { s with
        mallocs := ⟨fresh, size⟩ :: s.mallocs
        live := ⟨fresh, size, pool, none⟩ :: s.live } = s.hand := by
      refine hand_congr fun block => ?_
      simp [InUse]
    exact
      { inv with
        free := by
          rw [hands]
          exact inv.free
        held := List.forall_mem_cons.mpr ⟨List.mem_cons_self, fun b live => by
          have held := inv.held b live
          unfold Held at held ⊢
          split
          · next is => simpa only [is] using held
          · next is => exact List.mem_cons_of_mem _ (by simpa only [is] using held)⟩
        live_apart := List.pairwise_cons.mpr
          ⟨fun b live => inv.fresh_apart new live, inv.live_apart⟩
        mallocs_apart := fun b mem => List.forall_mem_cons.mpr
          ⟨(new.2.2.1 b mem).symm, inv.mallocs_apart b mem⟩ }
  · cases step

/-! ### A block from a buffer -/

theorem of_refill {arenaId : Nat} {k : Fin 4} {fresh : Nat} {s' : State}
    (step : s.refill arenaId k fresh = some s') :
    s'.Inv lists ∧ carvedSize k ≤ (s'.arenas (arenaId, k)).sizeInBuffer := by
  unfold State.refill at step
  dsimp only at step
  split at step
  · split at step
    · -- the arena takes a new buffer and forgets what is left of the old one
      next small new =>
      cases step
      -- the free lists are the same
      have heads : State.heads { s with
          arenas := Function.update s.arenas (arenaId, k)
            { s.arenas (arenaId, k) with buffer := fresh, sizeInBuffer := bufferSize k }
          buffers := ⟨fresh, arenaId, k⟩ :: s.buffers } = s.heads := by
        funext p
        unfold State.heads
        by_cases e : p = (arenaId, k)
        · subst e
          simp only [Function.update_self]
        · simp only [Function.update_of_ne e]
      have buffer : (⟨fresh, arenaId, k⟩ : Buffer).region = ⟨fresh, bufferSize k⟩ := rfl
      refine ⟨{ inv with
        free := by
          rw [heads]
          exact inv.free
        carved_in := fun c mem => ⟨(inv.carved_in c mem).1,
          (inv.carved_in c mem).2.mono (.refl _) (List.subset_cons_self _ _)⟩
        rest_in := fun p => ?_
        rest_carved := fun p => ?_
        buffers_apart := List.pairwise_cons.mpr ⟨new.2.2.1, inv.buffers_apart⟩
        mallocs_apart := List.forall_mem_cons.mpr ⟨new.2.2.2, inv.mallocs_apart⟩ }, ?_⟩
      · by_cases e : p = (arenaId, k)
        · subst e
          simp only [Function.update_self]
          exact fun _ => ⟨new.1, _, List.mem_cons_self, rfl, rfl, .refl _⟩
        · simp only [Function.update_of_ne e]
          exact fun pos => ⟨(inv.rest_in p pos).1,
            (inv.rest_in p pos).2.mono (.refl _) (List.subset_cons_self _ _)⟩
      · by_cases e : p = (arenaId, k)
        · subst e
          simp only [Function.update_self]
          intro _ c mem
          -- a carved block lies in an old buffer
          obtain ⟨old, old_mem, -, -, part⟩ := (inv.carved_in c mem).2
          exact ((new.2.2.1 old old_mem).symm.inside part).symm
        · simp only [Function.update_of_ne e]
          exact inv.rest_carved p
      · simp only [Function.update_self]
        exact carvedSize_le k
    · cases step
  · -- the buffer still has a block
    next big =>
    cases step
    exact ⟨inv, Nat.le_of_not_lt big⟩

/-- What is left in the buffers of different arenas is apart. -/
theorem rest_apart {p q : Nat × Fin 4} (ne : p ≠ q) (pos : 0 < (s.arenas p).sizeInBuffer)
    (pos' : 0 < (s.arenas q).sizeInBuffer) : (s.arenas p).rest.Apart (s.arenas q).rest := by
  obtain ⟨b, mem, owner, size, part⟩ := (inv.rest_in p pos).2
  obtain ⟨b', mem', owner', size', part'⟩ := (inv.rest_in q pos').2
  have other : b ≠ b' := by
    rintro rfl
    exact ne (Prod.ext (owner.symm.trans owner') (size.symm.trans size'))
  exact (((inv.buffers_ne mem mem' other).inside part).symm.inside part').symm

section New

variable {c : Carved} (apart : ∀ c' ∈ s.carved, c.region.Apart c'.region)

include apart

omit inv in
/-- The header of a new block is in no block that has been carved before. -/
theorem new_ne {c' : Carved} (mem : c' ∈ s.carved) {i : Nat} (lt : i < headerSize) :
    c'.block + i ≠ c.block := by
  intro e
  exact (apart c' mem).not_contains (c.contains (i := 0) (by decide)) (e ▸ c'.contains lt)

theorem new_unlisted (p : Nat × Fin 4) : c.block ∉ lists p := by
  intro mem
  obtain ⟨c', mem', same, -⟩ := inv.listed p _ mem
  exact new_ne apart mem' (i := 0) (by decide) same

theorem new_unused : ¬ s.InUse c.block := by
  rintro ⟨b, live, is, at_ptr⟩
  obtain ⟨issuer, is⟩ := Option.ne_none_iff_exists'.mp is
  obtain ⟨c', mem', at_ptr', -⟩ := inv.carved_of_live live is
  exact new_ne apart mem' (i := 0) (by decide) (Nat.add_right_cancel (at_ptr'.trans at_ptr))

theorem new_live_apart {arenaId : Nat} {k : Fin 4} (inside : s.InBuffer arenaId k c.region)
    {b : Block} (live : b ∈ s.live) : c.region.Apart b.region := by
  cases is : b.issuer with
  | none => exact inv.malloc_apart (inv.malloc_of_live live is) inside
  | some issuer =>
    obtain ⟨c', mem', -, -, part⟩ := inv.carved_of_live live is
    exact ((apart c' mem').symm.inside part).symm

end New

omit inv in
/-- What is left in the buffers after a block has been carved: less of one of them. -/
theorem carve_rest {arenaId : Nat} {k : Fin 4} (size : Nat)
    (big : carvedSize k ≤ (s.arenas (arenaId, k)).sizeInBuffer) (p : Nat × Fin 4) :
    ((s.carve arenaId k size).arenas p).rest.Inside (s.arenas p).rest := by
  unfold State.carve
  by_cases e : p = (arenaId, k)
  · subst e
    simp only [Function.update_self, Arena.rest, Region.Inside]
    omega
  · simp only [Function.update_of_ne e]
    exact .refl _

omit inv in
theorem carve_next {c : Carved} {arenaId : Nat} {k : Fin 4} (size : Nat)
    (ne : c.block + 8 ≠ (s.arenas (arenaId, k)).buffer) :
    (s.carve arenaId k size).next c.block = s.next c.block :=
  congrArg toPtr (Function.update_of_ne ne ..)

omit inv in
theorem carve_heads (arenaId : Nat) (k : Fin 4) (size : Nat) :
    (s.carve arenaId k size).heads = s.heads := by
  funext p
  unfold State.heads State.carve
  by_cases e : p = (arenaId, k)
  · subst e
    simp only [Function.update_self]
  · simp only [Function.update_of_ne e]

theorem of_carve {arenaId : Nat} {k : Fin 4} {size : Nat} (fits : size ≤ blockSizes k)
    (big : carvedSize k ≤ (s.arenas (arenaId, k)).sizeInBuffer) :
    (s.carve arenaId k size).Inv lists := by
  have large := blockSizes_le k
  have some_size := blockSizes_pos k
  have pos : 0 < (s.arenas (arenaId, k)).sizeInBuffer := by omega
  obtain ⟨block_pos, in_buffer⟩ := inv.rest_in (arenaId, k) pos
  let c : Carved := ⟨(s.arenas (arenaId, k)).buffer, arenaId, k⟩
  have part : c.region.Inside (s.arenas (arenaId, k)).rest :=
    ⟨Nat.le_refl _, Nat.add_le_add_left big _⟩
  have inside : s.InBuffer arenaId k c.region := in_buffer.mono part (List.Subset.refl _)
  -- the rest of a buffer is apart from every carved block
  have apart (c' : Carved) (mem : c' ∈ s.carved) : c.region.Apart c'.region :=
    (inv.rest_carved (arenaId, k) pos c' mem).inside part
  have used (u : Nat) : (s.carve arenaId k size).InUse u ↔ u = c.block ∨ s.InUse u := by
    simp [InUse, State.carve, c, eq_comm]
  -- the header is written into memory that is in no list
  have free : LinkedList.Apart (s.carve arenaId k size).next s.heads s.hand lists :=
    inv.free.congr fun p x mem => by
      obtain ⟨c', mem', rfl, -⟩ := inv.listed p x mem
      exact carve_next size (new_ne apart mem' (by decide))
  have rest_pos (p : Nat × Fin 4) (pos' : 0 < ((s.carve arenaId k size).arenas p).sizeInBuffer) :
      0 < (s.arenas p).sizeInBuffer := by
    have le := carve_rest size big p
    simp only [Arena.rest, Region.Inside] at le
    omega
  constructor
  case free =>
    rw [carve_heads]
    refine free.take (t := c.block) (a := c.block) (inv.new_unlisted apart) (fun u held => ?_) ?_
      fun u ne => ?_
    · obtain ⟨rfl, held⟩ := hand_eq.mp held
      exact inv.new_unused apart held
    · exact hand_eq.mpr ⟨rfl, (used _).mpr (.inl rfl)⟩
    · exact if_congr ((used u).trans (or_iff_right ne)) rfl rfl
  case listed =>
    intro p x mem
    obtain ⟨c', mem', is⟩ := inv.listed p x mem
    exact ⟨c', List.mem_cons_of_mem _ mem', is⟩
  case held =>
    refine List.forall_mem_cons.mpr ⟨⟨fits, c, List.mem_cons_self, rfl, rfl⟩, fun b live => ?_⟩
    have held := inv.held b live
    unfold Held at held ⊢
    split at held
    · obtain ⟨fits', c', mem', is⟩ := held
      exact ⟨fits', c', List.mem_cons_of_mem _ mem', is⟩
    · exact held
  case live_apart =>
    refine List.pairwise_cons.mpr ⟨fun b live => ?_, inv.live_apart⟩
    refine (inv.new_live_apart apart inside live).inside ⟨?_, ?_⟩
    all_goals simp only [Block.region, Carved.region, c]
    all_goals omega
  case carved_apart => exact List.pairwise_cons.mpr ⟨apart, inv.carved_apart⟩
  case carved_in => exact List.forall_mem_cons.mpr ⟨⟨block_pos, inside⟩, inv.carved_in⟩
  -- the size is written to the header, all other headers stay
  case carved_size =>
    refine List.forall_mem_cons.mpr ⟨?_, fun c' mem => ?_⟩
    · have lt := blockSizes_lt k
      simp only [State.carve, Function.update_self]
      omega
    · rw [← inv.carved_size c' mem]
      exact congrArg (· % 2 ^ 32)
        (Function.update_of_ne (new_ne apart mem (i := 0) (by decide)) ..)
  case rest_in =>
    intro p pos'
    have old := inv.rest_in p (rest_pos p pos')
    have le := carve_rest size big p
    exact ⟨Nat.lt_of_lt_of_le old.1 le.1, old.2.mono le (List.Subset.refl _)⟩
  case rest_carved =>
    intro p pos'
    have pos'' := rest_pos p pos'
    have le := carve_rest size big p
    refine List.forall_mem_cons.mpr ⟨?_, fun c' mem => (inv.rest_carved p pos'' c' mem).inside le⟩
    by_cases e : p = (arenaId, k)
    · subst e
      -- the rest of the buffer begins behind the block
      refine .inr ?_
      simp only [State.carve, Function.update_self, Arena.rest, Carved.region]
      exact Nat.le_refl _
    · exact ((inv.rest_apart e pos'' pos).symm.inside part).symm.inside le
  case buffers_apart => exact inv.buffers_apart
  case mallocs_apart => exact inv.mallocs_apart
  case freed => exact inv.freed

/-! ### A block from the list -/

omit inv in
/-- A new head changes nothing in the buffers. -/
theorem update_head (s : State) (p q : Nat × Fin 4) (head : Nat) :
    (Function.update s.arenas q { s.arenas q with head := head } p).buffer = (s.arenas p).buffer ∧
      (Function.update s.arenas q { s.arenas q with head := head } p).sizeInBuffer =
        (s.arenas p).sizeInBuffer := by
  by_cases e : p = q
  · subst e
    simp only [Function.update_self, and_self]
  · simp only [Function.update_of_ne e, and_self]

omit inv in
theorem take_rest (arenaId : Nat) (k : Fin 4) (size : Nat) (p : Nat × Fin 4) :
    ((s.take arenaId k size).arenas p).buffer = (s.arenas p).buffer ∧
      ((s.take arenaId k size).arenas p).sizeInBuffer = (s.arenas p).sizeInBuffer :=
  update_head s p (arenaId, k) _

omit inv in
theorem take_heads {arenaId : Nat} {k : Fin 4} (size : Nat) {p : Nat × Fin 4}
    (ne : p ≠ (arenaId, k)) : (s.take arenaId k size).heads p = s.heads p :=
  congrArg (fun arena : Arena => toPtr arena.head) (Function.update_of_ne ne ..)

theorem of_take {arenaId : Nat} {k : Fin 4} {size : Nat} (fits : size ≤ blockSizes k)
    (some_block : (s.arenas (arenaId, k)).head ≠ 0) :
    ∃ lists', (s.take arenaId k size).Inv lists' := by
  let block := (s.arenas (arenaId, k)).head
  have top : s.heads (arenaId, k) = some block := if_neg some_block
  have next_top : (s.take arenaId k size).heads (arenaId, k) = s.next block := by
    unfold State.heads State.take
    simp only [Function.update_self]
    rfl
  have used (u : Nat) : (s.take arenaId k size).InUse u ↔ u = block ∨ s.InUse u := by
    simp [InUse, State.take, block, eq_comm]
  -- the first block of the free list is taken
  obtain ⟨lists', free, first, same⟩ := inv.free.pop (t := block)
    (s.take arenaId k size).heads (s.take arenaId k size).hand top next_top
    (fun p ne => take_heads size ne) (hand_eq.mpr ⟨rfl, (used _).mpr (.inl rfl)⟩)
    fun u ne => if_congr ((used u).trans (or_iff_right ne)) rfl rfl
  have listed : block ∈ lists (arenaId, k) := first ▸ List.mem_cons_self
  -- a block on a free list is not in use
  have unused : ¬ s.InUse block := fun held =>
    inv.free.outside block (arenaId, k) block (hand_eq.mpr ⟨rfl, held⟩) listed
  obtain ⟨c, mem, at_block, rfl⟩ := inv.listed _ _ listed
  have rest := take_rest (s := s) arenaId c.sizeId size
  refine ⟨lists', { inv with
    free := free
    listed := fun p x left => ?_
    held := List.forall_mem_cons.mpr ⟨⟨fits, c, mem, by rw [at_block], rfl⟩, inv.held⟩
    live_apart := List.pairwise_cons.mpr ⟨fun b live => ?_, inv.live_apart⟩
    rest_in := fun p => ?_
    rest_carved := fun p => ?_ }⟩
  · by_cases e : p = (arenaId, c.sizeId)
    · subst e
      exact inv.listed _ x (first ▸ List.mem_cons_of_mem _ left)
    · exact inv.listed p x (same p e ▸ left)
  · have large := blockSizes_le c.sizeId
    -- a live block would be the one that was free
    refine (inv.apart_of_free mem (at_block ▸ unused) live).inside ⟨?_, ?_⟩
    all_goals simp only [Block.region, Carved.region, at_block]
    all_goals omega
  · simp only [Arena.rest, rest p]
    exact inv.rest_in p
  · simp only [Arena.rest, rest p]
    exact inv.rest_carved p

/-! ### A block that is freed -/

omit inv in
theorem free_rest (arenaId : Nat) (k : Fin 4) (b : Block) (p : Nat × Fin 4) :
    ((s.arenaFree arenaId k b).arenas p).buffer = (s.arenas p).buffer ∧
      ((s.arenaFree arenaId k b).arenas p).sizeInBuffer = (s.arenas p).sizeInBuffer :=
  update_head s p (arenaId, k) _

omit inv in
theorem free_heads {arenaId : Nat} {k : Fin 4} (b : Block) {p : Nat × Fin 4}
    (ne : p ≠ (arenaId, k)) : (s.arenaFree arenaId k b).heads p = s.heads p :=
  congrArg (fun arena : Arena => toPtr arena.head) (Function.update_of_ne ne ..)

omit inv in
theorem region_contains {b : Block} (is : b.issuer ≠ none) {block : Nat}
    (at_ptr : block + headerSize = b.ptr) : b.region.Contains block := by
  obtain ⟨⟨issuer, k⟩, is⟩ := Option.ne_none_iff_exists'.mp is
  have header : 0 < headerSize := by decide
  simp only [Block.region, is, Region.Contains]
  omega

/-- No other block in use is behind the same header. -/
theorem erase_unused {b : Block} (live : b ∈ s.live) (is : b.issuer ≠ none) {block : Nat}
    (at_ptr : block + headerSize = b.ptr) :
    ¬ ∃ b' ∈ s.live.erase b, b'.issuer ≠ none ∧ b'.ptr = block + headerSize := by
  rintro ⟨b', other, is', at_ptr'⟩
  have perm := List.perm_cons_erase live
  have apart := (perm.pairwise_iff fun h => Region.Apart.symm h).mp inv.live_apart
  exact (List.rel_of_pairwise_cons apart other).not_contains (region_contains is at_ptr)
    (region_contains is' at_ptr'.symm)

/-- A block that an arena issued goes to a list of its own size. -/
theorem of_arenaFree {arenaId : Nat} {b : Block} {issuer : Nat} {c : Carved} (live : b ∈ s.live)
    (is : b.issuer = some (issuer, c.sizeId)) (mem : c ∈ s.carved)
    (at_ptr : c.block + headerSize = b.ptr) :
    ∃ lists', (s.arenaFree arenaId c.sizeId b).Inv lists' := by
  have at_block : b.ptr - headerSize = c.block := by omega
  have issued : b.issuer ≠ none := by
    rw [is]
    exact nofun
  -- the block is in use, so it is on no list
  have held : s.hand c.block = some c.block := hand_eq.mpr ⟨rfl, b, live, issued, at_ptr.symm⟩
  have nexts : (s.arenaFree arenaId c.sizeId b).next =
      Function.update s.next c.block (s.heads (arenaId, c.sizeId)) := by
    funext x
    unfold State.next State.arenaFree
    rw [at_block]
    by_cases e : x = c.block
    · subst e
      simp only [Function.update_self]
      rfl
    · rw [Function.update_of_ne e]
      exact congrArg toPtr (Function.update_of_ne (fun same => e (Nat.add_right_cancel same)) ..)
  have top : (s.arenaFree arenaId c.sizeId b).heads (arenaId, c.sizeId) = some c.block := by
    unfold State.heads State.arenaFree
    simp only [Function.update_self, at_block]
    exact if_neg (Nat.ne_of_gt (inv.carved_in c mem).1)
  have others (u : Nat) (ne : u ≠ c.block) :
      (s.arenaFree arenaId c.sizeId b).InUse u ↔ s.InUse u := by
    constructor
    · rintro ⟨b', other, is', at_ptr'⟩
      exact ⟨b', List.mem_of_mem_erase other, is', at_ptr'⟩
    · rintro ⟨b', live', is', at_ptr'⟩
      refine ⟨b', (List.mem_erase_of_ne ?_).mpr live', is', at_ptr'⟩
      rintro rfl
      exact ne (Nat.add_right_cancel (at_ptr'.symm.trans at_ptr.symm))
  -- its link is set first, then it is made the head of the list
  have stored := inv.free.store (b := s.heads (arenaId, c.sizeId)) held
  rw [← nexts] at stored
  obtain ⟨lists', free, first, same⟩ := stored.push (t := c.block)
    (s.arenaFree arenaId c.sizeId b).heads (s.arenaFree arenaId c.sizeId b).hand held
    (by rw [nexts, Function.update_self]) top (fun p ne => free_heads b ne)
    (if_neg (inv.erase_unused live issued at_ptr)) fun u ne => if_congr (others u ne) rfl rfl
  have rest := free_rest (s := s) arenaId c.sizeId b
  refine ⟨lists', { inv with
    free := free
    listed := fun p x left => ?_
    held := fun b' other => inv.held b' (List.mem_of_mem_erase other)
    live_apart := inv.live_apart.sublist List.erase_sublist
    carved_size := fun c' mem' => ?_
    rest_in := fun p => ?_
    rest_carved := fun p => ?_
    freed := List.forall_mem_cons.mpr ⟨⟨issuer, is⟩, inv.freed⟩ }⟩
  · by_cases e : p = (arenaId, c.sizeId)
    · subst e
      rw [first] at left
      rcases List.mem_cons.mp left with rfl | left
      · exact ⟨c, mem, rfl, rfl⟩
      · exact inv.listed _ x left
    · exact inv.listed p x (same p e ▸ left)
  · -- the link is not written to the size of another block
    have ne : c'.block ≠ b.ptr - headerSize + 8 := by
      intro eq
      rw [at_block] at eq
      refine (inv.carved_ne mem mem' (by omega)).not_contains (c.contains (i := 8) (by decide)) ?_
      exact eq ▸ c'.contains (i := 0) (by decide)
    rw [← inv.carved_size c' mem']
    exact congrArg (· % 2 ^ 32) (Function.update_of_ne ne ..)
  · simp only [Arena.rest, rest p]
    exact inv.rest_in p
  · simp only [Arena.rest, rest p]
    exact inv.rest_carved p

/-- The size in front of a block that an arena issued is that of the arena. -/
theorem header_size {b : Block} {issuer : Nat} {k : Fin 4} (live : b ∈ s.live)
    (is : b.issuer = some (issuer, k)) :
    getSizeId (s.mem (b.ptr - headerSize) % 2 ^ 32) = some k := by
  obtain ⟨c, mem, at_ptr, rfl, -⟩ := inv.carved_of_live live is
  have at_block : b.ptr - headerSize = c.block := by omega
  rw [at_block, inv.carved_size c mem, ← Nat.mod_eq_of_lt (blockSizes_lt c.sizeId)]
  exact getSizeId_blockSizes c.sizeId

theorem free_some {b : Block} {issuer : Nat} {k : Fin 4} (live : b ∈ s.live)
    (is : b.issuer = some (issuer, k)) (arenaId : Nat) :
    ∃ s', s.free arenaId b = some s' := by
  unfold State.free
  rw [if_pos live, inv.header_size live is]
  exact ⟨_, rfl⟩

theorem of_free {arenaId : Nat} {b : Block} (pooled : b.issuer ≠ none) {s' : State}
    (step : s.free arenaId b = some s') : ∃ lists', s'.Inv lists' := by
  obtain ⟨⟨issuer, k⟩, is⟩ := Option.ne_none_iff_exists'.mp pooled
  unfold State.free at step
  split at step
  · next live =>
    obtain ⟨c, mem, at_ptr, rfl, -⟩ := inv.carved_of_live live is
    rw [inv.header_size live is] at step
    cases step
    exact inv.of_arenaFree live is mem at_ptr
  · cases step

/-! ### Steps -/

theorem of_alloc {arenaId size fresh : Nat} {s' : State}
    (step : s.alloc arenaId size fresh = some s') : ∃ lists', s'.Inv lists' := by
  unfold State.alloc at step
  dsimp only at step
  split at step
  · exact ⟨lists, inv.of_malloc step⟩
  · split at step
    · obtain ⟨k, is, step⟩ := Option.bind_eq_some_iff.mp step
      have fits := le_of_getSizeId is
      unfold State.arenaAlloc at step
      split at step
      · obtain ⟨s₁, refilled, rfl⟩ := Option.map_eq_some_iff.mp step
        obtain ⟨inv₁, big⟩ := inv.of_refill refilled
        exact ⟨lists, inv₁.of_carve fits big⟩
      · next some_block =>
        cases step
        exact inv.of_take fits some_block
    · exact ⟨lists, inv.of_malloc step⟩

/-- A step keeps the invariant if it frees no block from `malloc`. -/
theorem of_step {a : Label} {s' : State} (step : s.step a = some s')
    (pooled : ∀ arenaId b, a = .free arenaId b → b.issuer ≠ none) :
    ∃ lists', s'.Inv lists' := by
  cases a with
  | flags warmupFinish enableThreadMemPool =>
    cases step
    exact ⟨lists, { inv with }⟩
  | alloc arenaId size fresh => exact inv.of_alloc step
  | free arenaId b => exact inv.of_free (pooled arenaId b rfl) step
  | write address word => exact ⟨lists, inv.of_write step⟩

end Inv

theorem Inv.init {s : State} (init : Initial s) : s.Inv fun _ => [] := by
  obtain ⟨arenas, -, -, buffers, mallocs, carved, live, freed⟩ := init
  have unused (block : Nat) : s.hand block = none := by
    refine if_neg fun used => ?_
    obtain ⟨b, mem, -⟩ := used
    rw [live] at mem
    cases mem
  constructor
  case free =>
    refine ⟨fun p => ?_, fun _ => List.nodup_nil, nofun, fun t p a held => ?_,
      fun t u a held => ?_⟩
    · rw [LinkedList.chain_nil, State.heads, arenas p]
      rfl
    · rw [unused] at held
      cases held
    · rw [unused] at held
      cases held
  case listed => exact nofun
  case rest_in =>
    intro p
    rw [arenas p]
    exact fun pos => absurd pos (Nat.lt_irrefl 0)
  case rest_carved =>
    intro p
    rw [arenas p]
    exact fun pos => absurd pos (Nat.lt_irrefl 0)
  all_goals simp [*]

/-! ### Where a block is from -/

/-- Blocks that `alloc` took from an arena are those with a fitting size and a flag set. -/
def Tagged (s : State) : Prop :=
  (∀ b ∈ s.live, b.issuer ≠ none ↔ b.Pooled) ∧ ∀ e ∈ s.freed, e.1.issuer ≠ none ↔ e.1.Pooled

theorem malloc_live {size fresh : Nat} {pool : Bool} {s' : State}
    (step : s.malloc size fresh pool = some s') :
    s'.live = ⟨fresh, size, pool, none⟩ :: s.live ∧ s'.freed = s.freed := by
  unfold State.malloc at step
  split at step
  · cases step
    exact ⟨rfl, rfl⟩
  · cases step

theorem arenaAlloc_live {arenaId : Nat} {k : Fin 4} {size fresh : Nat} {s' : State}
    (step : s.arenaAlloc arenaId k size fresh = some s') :
    (∃ ptr, s'.live = ⟨ptr, size, true, some (arenaId, k)⟩ :: s.live) ∧ s'.freed = s.freed := by
  unfold State.arenaAlloc at step
  split at step
  · obtain ⟨s₁, refilled, rfl⟩ := Option.map_eq_some_iff.mp step
    unfold State.refill at refilled
    dsimp only at refilled
    split at refilled
    · split at refilled
      · cases refilled
        exact ⟨⟨_, rfl⟩, rfl⟩
      · cases refilled
    · cases refilled
      exact ⟨⟨_, rfl⟩, rfl⟩
  · cases step
    exact ⟨⟨_, rfl⟩, rfl⟩

theorem alloc_live {arenaId size fresh : Nat} {s' : State}
    (step : s.alloc arenaId size fresh = some s') :
    (∃ b, s'.live = b :: s.live ∧ (b.issuer ≠ none ↔ b.Pooled)) ∧ s'.freed = s.freed := by
  unfold State.alloc at step
  dsimp only at step
  split at step
  · next large =>
    obtain ⟨live, freed⟩ := malloc_live step
    exact ⟨⟨_, live, by simp [Block.Pooled, Nat.not_le_of_lt large]⟩, freed⟩
  · next small =>
    split at step
    · obtain ⟨k, -, step⟩ := Option.bind_eq_some_iff.mp step
      obtain ⟨⟨ptr, live⟩, freed⟩ := arenaAlloc_live step
      exact ⟨⟨_, live, by simp [Block.Pooled, Nat.le_of_not_lt small]⟩, freed⟩
    · next off =>
      obtain ⟨live, freed⟩ := malloc_live step
      exact ⟨⟨_, live, by simp [Block.Pooled, off]⟩, freed⟩

theorem Tagged.step (tagged : s.Tagged) {a : Label} {s' : State} (step : s.step a = some s') :
    s'.Tagged := by
  obtain ⟨live, freed⟩ := tagged
  cases a with
  | flags warmupFinish enableThreadMemPool =>
    cases step
    exact ⟨live, freed⟩
  | alloc arenaId size fresh =>
    -- only an allocation makes a block live
    obtain ⟨⟨b, live', tag⟩, freed'⟩ := alloc_live step
    refine ⟨?_, freed' ▸ freed⟩
    rw [live']
    exact List.forall_mem_cons.mpr ⟨tag, live⟩
  | free arenaId b =>
    simp only [State.step, State.free] at step
    split at step
    · next mem =>
      obtain ⟨k, -, rfl⟩ := Option.map_eq_some_iff.mp step
      exact ⟨fun b' other => live b' (List.mem_of_mem_erase other),
        List.forall_mem_cons.mpr ⟨live b mem, freed⟩⟩
    · cases step
  | write address word =>
    simp only [State.step, State.write] at step
    split at step
    · cases step
      exact ⟨live, freed⟩
    · cases step

/-- Blocks that were freed stay on record, and a step that frees one adds it. -/
theorem step_freed {a : Label} {s' : State} (step : s.step a = some s') :
    s.freed ⊆ s'.freed ∧ ∀ arenaId b, a = .free arenaId b → ∃ k, (b, k) ∈ s'.freed := by
  cases a with
  | flags warmupFinish enableThreadMemPool =>
    cases step
    exact ⟨List.Subset.refl _, nofun⟩
  | alloc arenaId size fresh =>
    exact ⟨(alloc_live step).2 ▸ List.Subset.refl _, nofun⟩
  | free arenaId b =>
    simp only [State.step, State.free] at step
    split at step
    · obtain ⟨k, -, rfl⟩ := Option.map_eq_some_iff.mp step
      refine ⟨List.subset_cons_self _ _, fun _ _ is => ?_⟩
      cases is
      exact ⟨k, List.mem_cons_self⟩
    · cases step
  | write address word =>
    simp only [State.step, State.write] at step
    split at step
    · cases step
      exact ⟨List.Subset.refl _, nofun⟩
    · cases step

end State

/-! ### Runs -/

theorem reachable_inv {s : State} (reached : machine.Reachable Free s) :
    s.Tagged ∧ ((∀ e ∈ s.freed, e.1.Pooled) → ∃ lists, s.Inv lists) := by
  refine reached.invariant (I := fun s => s.Tagged ∧
    ((∀ e ∈ s.freed, e.1.Pooled) → ∃ lists, s.Inv lists)) ?_ ?_
  · intro s init
    refine ⟨⟨?_, ?_⟩, fun _ => ⟨_, State.Inv.init init⟩⟩
    · rw [init.live]
      exact nofun
    · rw [init.freed]
      exact nofun
  · rintro s a s' ⟨tagged, inv⟩ - step
    have tagged' := tagged.step step
    refine ⟨tagged', fun pooled => ?_⟩
    obtain ⟨more, added⟩ := State.step_freed step
    obtain ⟨lists, inv⟩ := inv fun e mem => pooled e (more mem)
    refine inv.of_step step fun arenaId b is => ?_
    obtain ⟨k, mem⟩ := added arenaId b is
    exact (tagged'.2 _ mem).mpr (pooled _ mem)

/-- In every run the allocator keeps its promise exactly as long as every block that is freed was
allocated with a size up to the largest block size while one of the flags was set. -/
theorem blocks_kept_apart {s : State} (reached : machine.Reachable Free s) :
    s.Sound ↔ ∀ e ∈ s.freed, e.1.Pooled := by
  obtain ⟨tagged, inv⟩ := reachable_inv reached
  constructor
  · intro sound e mem
    obtain ⟨arenaId, is⟩ := sound.freed e mem
    exact (tagged.2 e mem).mp (by rw [is]; exact nofun)
  · intro pooled
    obtain ⟨lists, inv⟩ := inv pooled
    exact inv.sound

/-- As long as that is so, a free of such a block finds its size. -/
theorem free_pooled {s : State} (reached : machine.Reachable Free s)
    (pooled : ∀ e ∈ s.freed, e.1.Pooled) {b : Block} (live : b ∈ s.live) (mine : b.Pooled)
    (arenaId : Nat) : ∃ s', s.free arenaId b = some s' := by
  obtain ⟨tagged, inv⟩ := reachable_inv reached
  obtain ⟨lists, inv⟩ := inv pooled
  obtain ⟨⟨issuer, k⟩, is⟩ := Option.ne_none_iff_exists'.mp ((tagged.1 b live).mpr mine)
  exact inv.free_some live is arenaId

/-- The beginning, with memory that is all zero. -/
def State.start : State where
  arenas _ := Arena.init
  mem _ := 0
  warmupFinish := false
  enableThreadMemPool := false
  buffers := []
  mallocs := []
  carved := []
  live := []
  freed := []

theorem State.start_initial : Initial State.start := by constructor <;> simp [State.start]

/-- Two threads allocate blocks of three sizes, one with `malloc`; thread 1 frees two that thread 0
has carved, from its arenas `i` and `j`, and gets one of them again. -/
def exchange (i j : Fin 4) : List Label :=
  [.flags true false, .alloc 0 100 4096, .alloc 0 50 10489856, .alloc 0 120 0,
    .alloc 1 2000 13111296, .write 4384 7, .free 1 ⟨4112, 100, true, some (0, i)⟩,
    .free 1 ⟨10489872, 50, true, some (0, j)⟩, .alloc 1 200 0]

/-- Three blocks are in use at the end, of two arenas and of `malloc`. -/
theorem blocks_kept_apart_exchange : ∃ s, machine.Reachable Free s ∧
    s.live = [⟨4112, 200, true, some (1, 2)⟩, ⟨13111296, 2000, true, none⟩,
      ⟨4384, 120, true, some (0, 2)⟩] ∧
    s.freed = [(⟨10489872, 50, true, some (0, 1)⟩, 1), (⟨4112, 100, true, some (0, 2)⟩, 2)] ∧
    s.Sound := by
  obtain ⟨s, run, view⟩ := machine.exists_along Free State.start (exchange 2 1)
    (fun s => (s.live, s.freed))
    ([⟨4112, 200, true, some (1, 2)⟩, ⟨13111296, 2000, true, none⟩,
      ⟨4384, 120, true, some (0, 2)⟩],
      [(⟨10489872, 50, true, some (0, 1)⟩, 1), (⟨4112, 100, true, some (0, 2)⟩, 2)])
    (by decide +kernel)
  obtain ⟨live, freed⟩ := Prod.mk.inj view
  have reached : machine.Reachable Free s := ⟨_, _, State.start_initial, run⟩
  refine ⟨s, reached, live, freed, (blocks_kept_apart reached).mpr ?_⟩
  rw [freed]
  decide

/-- A block of 2000 bytes from `malloc`, with zeros before it, is freed: the arena of the smallest
size takes it, and issues it for ten bytes although it has never obtained a buffer. -/
theorem blocks_kept_apart_malloc : ∃ s, machine.Reachable Free s ∧
    s.live = [⟨4096, 10, true, some (0, 0)⟩] ∧
    s.freed = [(⟨4096, 2000, true, none⟩, 0)] ∧ s.buffers = [] ∧ ¬ s.Sound := by
  obtain ⟨s, run, view⟩ := machine.exists_along Free State.start
    [.flags true false, .alloc 0 2000 4096, .free 0 ⟨4096, 2000, true, none⟩, .alloc 0 10 0]
    (fun s => (s.live, s.freed, s.buffers))
    ([⟨4096, 10, true, some (0, 0)⟩], [(⟨4096, 2000, true, none⟩, 0)], []) (by decide +kernel)
  have freed : s.freed = [(⟨4096, 2000, true, none⟩, 0)] :=
    congrArg (fun view => view.2.1) view
  refine ⟨s, ⟨_, _, State.start_initial, run⟩, congrArg Prod.fst view, freed,
    congrArg (fun view => view.2.2) view, fun sound => ?_⟩
  obtain ⟨arenaId, is⟩ := sound.freed _ (freed ▸ List.mem_cons_self)
  cases is

end DBx1000.Allocator
