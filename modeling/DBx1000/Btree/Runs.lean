import DBx1000.Btree.Leaves
import DBx1000.Library.Chain

/-!
# Insertions from the empty tree

Calls of `index_insert`, one after another, with latches disabled. The leaves hold the keys in
order, each with the chain of its items.

## Main result

`index_insert_runs`: after every sequence of calls whose splits fit, the levels are those of a tree
and every key is found with exactly its items; the next call ends, and stays inside of the arrays,
exactly if its split fits.

## Proof strategy

One call changes one leaf and the levels above it; a chain other than that of the key has neither
the new item nor a new slot. The rest is induction on the run, with the calls that are done.
-/

namespace DBx1000.Btree

open Shift LinkedList Transition

variable {order : Nat} {s s' : IndexBtree} {key : Key} {leaves : Level} {up : List Level}
  {calls : List (Key × Ptr)}

/-! ### The items of a key -/

/-- A word as a pointer. -/
def link (p : Ptr) : Option Ptr := if p = null then none else some p

/-- The items inserted under a key, the last one first. -/
def itemsOf (calls : List (Key × Ptr)) (key : Key) : List Ptr :=
  ((calls.filter fun call => call.1 = key).map Prod.snd).reverse

theorem itemsOf_append_self (calls : List (Key × Ptr)) (key : Key) (item : Ptr) :
    itemsOf (calls ++ [(key, item)]) key = item :: itemsOf calls key := by
  simp [itemsOf]

theorem itemsOf_append_of_ne (calls : List (Key × Ptr)) {key key' : Key} (item : Ptr)
    (ne : key' ≠ key) : itemsOf (calls ++ [(key, item)]) key' = itemsOf calls key' := by
  simp [itemsOf, ne.symm]

theorem mem_of_mem_itemsOf {item : Ptr} (mem : item ∈ itemsOf calls key) :
    item ∈ calls.map Prod.snd := by
  unfold itemsOf at mem
  rw [List.mem_reverse] at mem
  obtain ⟨call, hc, rfl⟩ := List.mem_map.mp mem
  exact List.mem_map_of_mem (List.mem_of_mem_filter hc)

/-- The slot heads the chain of these items. -/
def Heads (s : IndexBtree) (p : Ptr) (items : List Ptr) : Prop :=
  Chain (fun a => link (s.itemNext a)) (link p) items

/-- The leaves have the keys of the calls, each with its items. -/
structure Stores (s : IndexBtree) (leaves : Level) (calls : List (Key × Ptr)) : Prop where
  keys : ∀ key, key ∈ leaves.flatMap Cell.keys ↔ itemsOf calls key ≠ []
  chains : ∀ e ∈ leaves.flatMap Cell.entries, Heads s e.2 (itemsOf calls e.1)

/-- Searching for a key gives its items, or nothing if there are none. -/
def Answers (order : Nat) (s : IndexBtree) (key : Key) (items : List Ptr) : Prop :=
  match s.indexRead order key with
  | some p => items ≠ [] ∧ Heads s p items
  | none => items = []

theorem Cell.key_of_mem_entries {c : Cell} {e : Key × Ptr} (mem : e ∈ c.entries) : e.1 ∈ c.keys :=
  (List.of_mem_zip mem).1

/-- A search gives what the leaves store. -/
theorem HasLevels.answers (pos : 0 < order) (h : HasLevels order s leaves up)
    (stores : Stores s leaves calls) (inPart : InPartition s key) : Answers order s key (itemsOf calls key) := by
  obtain ⟨l₁, l₂, c, p⟩ := h.leafAt pos key
  have mine : c ∈ leaves := by
    rw [p.leaves]
    simp
  have holds := h.holds c mine
  have arity : c.pointers.length = c.keys.length := holds.arity
  have few := holds.few
  obtain ⟨lastEx, find, -⟩ := p.find inPart .INDEX_READ
  have has := leafHasKey_eq key (holds.numKeys ▸ holds.few : (s.node c.addr).numKeys ≤ order - 1)
  rw [holds.numKeys, holds.keys] at has
  -- the leaf of the key has its slot, or does not have the key
  have read : s.indexRead order key = if key ∈ c.keys then
      some ((s.node c.addr).pointers (c.keys.idxOf key)) else none := by
    unfold IndexBtree.indexRead
    simp only [find, Option.bind_eq_bind, Option.bind_some, has]
    by_cases mem : key ∈ c.keys
    · have lt : c.keys.idxOf key < c.keys.length := List.idxOf_lt_length_of_mem mem
      simp only [mem, if_true]
      exact loadPointer_of_lt (by omega)
    · simp only [mem, if_false]
  -- the keys of all leaves are those of the insertions
  have known := stores.keys key
  rw [p.mem_keys h.sorted] at known
  unfold Answers
  rw [read]
  by_cases mem : key ∈ c.keys
  · rw [if_pos mem]
    refine ⟨known.mp mem, stores.chains (key, _) ?_⟩
    refine List.mem_flatMap.mpr ⟨c, mine, List.mem_iff_getElem?.mpr ⟨c.keys.idxOf key, ?_⟩⟩
    have lt : c.keys.idxOf key < c.keys.length := List.idxOf_lt_length_of_mem mem
    rw [Cell.entries, List.getElem?_zip_eq_some]
    exact ⟨List.getElem?_idxOf mem, holds.pointer_at (by omega)⟩
  · rw [if_neg mem]
    by_contra some
    exact mem (known.mpr some)

/-! ### What a call stores -/

theorem Heads.congr {p : Ptr} {items : List Ptr} (h : Heads s p items)
    (same : ∀ a ∈ items, s'.itemNext a = s.itemNext a) : Heads s' p items := by
  apply Chain.congr h
  intro a ha
  rw [same a ha]

section Store

variable {l₁ l₂ : Level} {c : Cell} {item : Ptr}

/-- Other leaves do not have the key. -/
theorem ne_of_beside (keys : ((l₁ ++ c :: l₂).flatMap Cell.keys).Pairwise (· < ·))
    (mem : key ∈ c.keys) {d : Cell} (hd : d ∈ l₁ ++ l₂) {k : Key} (hk : k ∈ d.keys) : k ≠ key := by
  rw [List.flatMap_append, List.flatMap_cons] at keys
  obtain ⟨-, rest, before⟩ := List.pairwise_append.mp keys
  obtain ⟨-, -, behind⟩ := List.pairwise_append.mp rest
  rcases List.mem_append.mp hd with front | back
  · have inside : k ∈ l₁.flatMap Cell.keys := List.mem_flatMap.mpr ⟨d, front, hk⟩
    exact Nat.ne_of_lt (before k inside key (List.mem_append_left _ mem))
  · exact Nat.ne_of_gt (behind key mem k (List.mem_flatMap.mpr ⟨d, back, hk⟩))

/-- A key that is there: its chain is one item longer. -/
theorem Stores.insert_mem (stores : Stores s (l₁ ++ c :: l₂) calls)
    (keys : ((l₁ ++ c :: l₂).flatMap Cell.keys).Pairwise (· < ·)) (mem : key ∈ c.keys) {old : Ptr}
    (slot : (key, old) ∈ c.entries) (items : s'.itemNext = Function.update s.itemNext item old)
    (fresh : item ∉ calls.map Prod.snd) (some : item ≠ null) :
    Stores s' (l₁ ++ { c with pointers := c.pointers.set (c.keys.idxOf key) item } :: l₂)
      (calls ++ [(key, item)]) := by
  -- the chains of before do not have the item
  have other {p : Ptr} {k : Key} (h : Heads s p (itemsOf calls k)) :
      Heads s' p (itemsOf calls k) := by
    apply h.congr
    intro a ha
    rw [items, Function.update_of_ne]
    rintro rfl
    exact fresh (mem_of_mem_itemsOf ha)
  have nodup : c.keys.Nodup := by
    rw [List.flatMap_append, List.flatMap_cons] at keys
    exact (List.pairwise_append.mp (List.pairwise_append.mp keys).2.1).1.imp Nat.ne_of_lt
  refine ⟨fun k => ?_, fun e he => ?_⟩
  · have same : (l₁ ++ { c with pointers := c.pointers.set (c.keys.idxOf key) item } :: l₂).flatMap
        Cell.keys = (l₁ ++ c :: l₂).flatMap Cell.keys := by
      rw [List.flatMap_append, List.flatMap_append, List.flatMap_cons, List.flatMap_cons]
    rw [same]
    by_cases here : k = key
    · subst here
      rw [itemsOf_append_self]
      refine iff_of_true ?_ (List.cons_ne_nil _ _)
      exact List.mem_flatMap.mpr ⟨c, by simp, mem⟩
    · rw [itemsOf_append_of_ne calls item here]
      exact stores.keys k
  · have beside (d : Cell) (hd : d ∈ l₁ ++ l₂) (he : e ∈ d.entries) :
        Heads s' e.2 (itemsOf (calls ++ [(key, item)]) e.1) := by
      have ne := ne_of_beside keys mem hd (Cell.key_of_mem_entries he)
      rw [itemsOf_append_of_ne calls item ne]
      refine other (stores.chains e (List.mem_flatMap.mpr ⟨d, ?_, he⟩))
      simp only [List.mem_append, List.mem_cons] at hd ⊢
      tauto
    obtain ⟨d, hd, he⟩ := List.mem_flatMap.mp he
    rcases List.mem_append.mp hd with front | hd
    · exact beside d (List.mem_append_left _ front) he
    rcases List.mem_cons.mp hd with rfl | back
    · obtain ⟨j, at_⟩ := List.mem_iff_getElem?.mp he
      obtain ⟨atKey, atSlot⟩ := List.getElem?_zip_eq_some.mp at_
      have atKey : c.keys[j]? = .some e.1 := atKey
      have atSlot : (c.pointers.set (c.keys.idxOf key) item)[j]? = .some e.2 := atSlot
      by_cases here : c.keys.idxOf key = j
      · -- the slot of the key
        subst here
        have isKey : e.1 = key := by
          rw [List.getElem?_idxOf mem] at atKey
          exact (Option.some.inj atKey).symm
        have isItem : e.2 = item := by
          rw [List.getElem?_set_self'] at atSlot
          obtain ⟨_, -, same⟩ := Option.map_eq_some_iff.mp atSlot
          exact same.symm
        rw [isKey, isItem, itemsOf_append_self]
        refine ⟨if_neg some, ?_⟩
        change Heads s' (s'.itemNext item) (itemsOf calls key)
        rw [items, Function.update_self]
        exact other (stores.chains (key, old) (List.mem_flatMap.mpr ⟨c, by simp, slot⟩))
      · -- another slot of the leaf has another key
        have ne : e.1 ≠ key := by
          intro isKey
          rw [isKey, ← List.getElem?_idxOf mem] at atKey
          have lt : c.keys.idxOf key < c.keys.length := List.idxOf_lt_length_of_mem mem
          exact here ((List.getElem?_inj lt nodup).mp atKey.symm)
        rw [List.getElem?_set_ne here] at atSlot
        rw [itemsOf_append_of_ne calls item ne]
        refine other (stores.chains e (List.mem_flatMap.mpr ⟨c, by simp, ?_⟩))
        exact List.mem_iff_getElem?.mpr ⟨j, List.getElem?_zip_eq_some.mpr ⟨atKey, atSlot⟩⟩
    · exact beside d (List.mem_append_right _ back) he

/-- A new key: its chain is the item alone. -/
theorem Stores.insert_new (stores : Stores s (l₁ ++ c :: l₂) calls)
    (new : key ∉ (l₁ ++ c :: l₂).flatMap Cell.keys) (arity : c.pointers.length = c.keys.length)
    {parts : Level} (keys : parts.flatMap Cell.keys = (c.insertLeaf key item).keys)
    (entries : parts.flatMap Cell.entries = (c.insertLeaf key item).entries)
    (items : s'.itemNext = s.itemNext) (first : s.itemNext item = null) (some : item ≠ null) :
    Stores s' (l₁ ++ parts ++ l₂) (calls ++ [(key, item)]) := by
  -- the key has no items yet
  have none : itemsOf calls key = [] := by
    by_contra some
    exact new ((stores.keys key).mpr some)
  have other {p : Ptr} {k : Key} (h : Heads s p (itemsOf calls k)) : Heads s' p (itemsOf calls k) :=
    h.congr fun a _ => by rw [items]
  have key_iff (k : Key) : k ∈ (l₁ ++ parts ++ l₂).flatMap Cell.keys ↔
      k = key ∨ k ∈ (l₁ ++ c :: l₂).flatMap Cell.keys := by
    rw [List.flatMap_append, List.flatMap_append, keys, List.flatMap_append, List.flatMap_cons,
      List.mem_append, List.mem_append, Cell.mem_insertLeaf, List.mem_append, List.mem_append]
    tauto
  have entry (e : Key × Ptr) (he : e ∈ (l₁ ++ parts ++ l₂).flatMap Cell.entries) :
      e = (key, item) ∨ e ∈ (l₁ ++ c :: l₂).flatMap Cell.entries := by
    have made : (c.insertLeaf key item).entries = c.entries.insertIdx (place c.keys key) (key, item) :=
      zip_insertIdx _ _ _ _ _ arity.symm
    rw [List.flatMap_append, List.flatMap_append, entries, made] at he
    rw [List.flatMap_append, List.flatMap_cons]
    rcases List.mem_append.mp he with he | he
    · rcases List.mem_append.mp he with he | he
      · exact .inr (List.mem_append_left _ he)
      · rcases List.eq_or_mem_of_mem_insertIdx he with rfl | he
        · exact .inl rfl
        · exact .inr (List.mem_append_right _ (List.mem_append_left _ he))
    · exact .inr (List.mem_append_right _ (List.mem_append_right _ he))
  refine ⟨fun k => ?_, fun e he => ?_⟩
  · rw [key_iff]
    by_cases here : k = key
    · subst here
      rw [itemsOf_append_self]
      exact iff_of_true (.inl rfl) (List.cons_ne_nil _ _)
    · rw [itemsOf_append_of_ne calls item here, or_iff_right here]
      exact stores.keys k
  · rcases entry e he with rfl | old
    · -- the item has no next one
      rw [itemsOf_append_self, none]
      refine ⟨if_neg some, ?_⟩
      change link (s'.itemNext item) = .none
      rw [items, first]
      rfl
    · have ne : e.1 ≠ key := by
        rintro isKey
        obtain ⟨d, hd, mem⟩ := List.mem_flatMap.mp old
        exact new (List.mem_flatMap.mpr ⟨d, hd, isKey ▸ Cell.key_of_mem_entries mem⟩)
      rw [itemsOf_append_of_ne calls item ne]
      exact other (stores.chains e old)

end Store

/-! ### The partition of the nodes -/

theorem adopt_inPart {a : Ptr} {rounds i : Nat}
    (h : IndexBtree.adopt order a rounds i s = some s') : s'.inPart = s.inPart := by
  induction rounds generalizing s i with
  | zero =>
    cases h
    rfl
  | succ rounds ih =>
    obtain ⟨child, -, rest⟩ := Option.bind_eq_some_iff.mp h
    have same := ih rest
    exact same

theorem splitNl_inPart {a right new : Ptr} {i : Nat} {kPrime : Key}
    (h : s.splitNl order a i key right = some (s', kPrime, new)) : s'.inPart = s.inPart := by
  unfold IndexBtree.splitNl at h
  simp only [Option.bind_eq_bind, Option.bind_eq_some_iff, Option.some.injEq, Prod.mk.injEq] at h
  obtain ⟨_, -, _, -, tempPointers, -, tempKeys, -, old, filled, p, -, old', stored, _, -, n,
    filled', p', -, n', stored', s₁, adopted, rfl, -, -⟩ := h
  exact (adopt_inPart adopted).trans rfl

theorem insertIntoNewRoot_inPart {left right : Ptr}
    (h : s.insertIntoNewRoot order left key right = some s') : s'.inPart = s.inPart := by
  unfold IndexBtree.insertIntoNewRoot at h
  simp only [Option.bind_eq_bind, Option.bind_eq_some_iff] at h
  obtain ⟨n, -, n', -, n'', -, h⟩ := h
  split at h
  · cases h
    rfl
  · cases h

theorem insertIntoParent_inPart {rounds : Nat} {left right : Ptr}
    (h : IndexBtree.insertIntoParent order rounds s left key right = some s') :
    s'.inPart = s.inPart := by
  induction rounds generalizing s left key right with
  | zero => cases h
  | succ rounds ih =>
    unfold IndexBtree.insertIntoParent at h
    dsimp only at h
    split at h
    · exact insertIntoNewRoot_inPart h
    · obtain ⟨idx, -, h⟩ := Option.bind_eq_some_iff.mp h
      split at h
      · simp only [Option.bind_eq_bind, Option.bind_eq_some_iff, Option.some.injEq] at h
        obtain ⟨n, -, n', -, n'', -, rfl⟩ := h
        rfl
      · obtain ⟨⟨s₁, kPrime, new⟩, split, rest⟩ := Option.bind_eq_some_iff.mp h
        exact (ih rest).trans (splitNl_inPart split)

theorem splitLf_inPart {leaf item new : Ptr} {newKey : Key}
    (h : s.splitLf order leaf key item = some (s', newKey, new)) : s'.inPart = s.inPart := by
  unfold IndexBtree.splitLf at h
  dsimp only at h
  split at h
  · simp only [Option.bind_eq_bind, Option.bind_eq_some_iff, Option.some.injEq, Prod.mk.injEq] at h
    obtain ⟨_, -, _, -, _, -, n, -, n', -, n'', -, n₃, -, _, -, rfl, -⟩ := h
    rfl
  · cases h

theorem insertIntoLeaf_inPart {leaf item : Ptr}
    (h : s.insertIntoLeaf order leaf key item = some s') : s'.inPart = s.inPart := by
  obtain ⟨found, -, h⟩ := Option.bind_eq_some_iff.mp h
  split at h
  · simp only [Option.bind_eq_bind, Option.bind_eq_some_iff, Option.some.injEq] at h
    obtain ⟨_, -, n, -, rfl⟩ := h
    rfl
  · simp only [Option.bind_eq_bind, Option.bind_eq_some_iff] at h
    obtain ⟨_, -, n, -, n', -, n'', -, h⟩ := h
    split at h
    · cases h
      rfl
    · cases h

theorem indexInsert_inPart {item : Ptr} (h : s.indexInsert order key item = some s') :
    s'.inPart = s.inPart := by
  have split {leaf : Ptr} (h : s.splitLfInsert order leaf key item = some s') :
      s'.inPart = s.inPart := by
    obtain ⟨⟨s₁, newKey, new⟩, split, rest⟩ := Option.bind_eq_some_iff.mp h
    exact (insertIntoParent_inPart rest).trans (splitLf_inPart split)
  obtain ⟨⟨leaf, lastEx⟩, -, h⟩ := Option.bind_eq_some_iff.mp h
  dsimp only at h
  split at h
  on_goal 1 => obtain ⟨-, -, h⟩ := Option.bind_eq_some_iff.mp h
  all_goals
    split at h
    · exact insertIntoLeaf_inPart h
    · obtain ⟨found, -, h⟩ := Option.bind_eq_some_iff.mp h
      split at h
      · exact insertIntoLeaf_inPart h
      · exact split h

/-- If all nodes are in the partition, as with one partition, no call meets another one. -/
theorem InPartition.of_run {ok : IndexBtree → Key × Ptr → Prop}
    (run : (btreeMachine order).Along ok s calls s') (all : ∀ a, s.inPart a = true) (key : Key) :
    InPartition s' key := by
  have step (s : IndexBtree) (call : Key × Ptr) (t : IndexBtree) (all : ∀ a, s.inPart a = true)
      (_ : ok s call) (next : (btreeMachine order).step s call = some t) (a : Ptr) :
      t.inPart a = true := by
    have same : t.inPart = s.inPart := indexInsert_inPart next
    rw [same]
    exact all a
  have kept : ∀ a, s'.inPart a = true := run.preserves step all
  exact fun a _ => kept a

/-! ### Runs -/

/-- A call with a 64-bit key, whose search stays in the partition and whose split fits; an item
whose key is new comes without a next one. -/
def Fits (order : Nat) (s : IndexBtree) (call : Key × Ptr) : Prop :=
  call.1 < 2 ^ 64 ∧ InPartition s call.1 ∧ InsertFits order s call.1 ∧
    (s.indexRead order call.1 = none → s.itemNext call.2 = null)

instance (order : Nat) (s : IndexBtree) (call : Key × Ptr) : Decidable (Fits order s call) :=
  inferInstanceAs (Decidable (_ ∧ _))

/-- A tree that stores what the calls have inserted. -/
def IsTreeOf (order : Nat) (s : IndexBtree) (calls : List (Key × Ptr)) : Prop :=
  ∃ leaves up, HasLevels order s leaves up ∧ Stores s leaves calls

theorem isTreeOf_init (memory : Ptr → BtNode) (itemNext : Ptr → Ptr) (inPart : Ptr → Bool) :
    IsTreeOf order (IndexBtree.init memory itemNext inPart) [] := by
  let s := IndexBtree.init memory itemNext inPart
  let cell : Cell := ⟨1, 0, [], []⟩
  -- the first node is an empty leaf
  have made : s.node 1 =
      { memory 1 with isLeaf := true, numKeys := 0, parent := null, next := null } := by
    simp [s, IndexBtree.init, IndexBtree.makeLf, IndexBtree.makeNode, IndexBtree.setNode, null]
  have holds : cell.Holds order s true :=
    Cell.holds_of made rfl rfl rfl rfl rfl (Nat.zero_le _)
  refine ⟨[cell], [],
    ⟨⟨1, rfl, ?_, rfl⟩, ?_, fun never => absurd rfl never, ⟨?_, trivial⟩, ?_, ?_, ?_, ?_⟩,
    ⟨fun key => ?_, fun e he => ?_⟩⟩
  · exact congrArg BtNode.parent made
  · intro c hc
    obtain rfl := List.mem_singleton.mp hc
    exact holds
  · exact congrArg BtNode.next made
  · simp [cell, Cell.ranks]
  · simp [addrs]
  · intro a ha
    obtain rfl : a = 1 := by simpa [addrs, cell] using ha
    exact ⟨Nat.one_ne_zero, Nat.lt_succ_self 1⟩
  · intro c hc k hk
    obtain rfl := List.mem_singleton.mp hc
    cases hk
  · simp [cell, itemsOf]
  · simp [cell, Cell.entries] at he

/-- One call. -/
theorem IsTreeOf.step (three : 3 ≤ order) (limit : order ≤ 2 ^ 32) (h : IsTreeOf order s calls)
    {item : Ptr} (fits : Fits order s (key, item)) (run : s.indexInsert order key item = some s')
    (fresh : item ∉ calls.map Prod.snd) (some : item ≠ null) :
    IsTreeOf order s' (calls ++ [(key, item)]) := by
  obtain ⟨leaves, up, levels, stores⟩ := h
  obtain ⟨word, inPart, split, first⟩ := fits
  obtain ⟨l₁, l₂, c, p⟩ := levels.leafAt (show 0 < order by omega) key
  have mine : c ∈ leaves := by
    rw [p.leaves]
    simp
  -- the item is put before those of its key, or gets a slot of its own
  by_cases mem : key ∈ c.keys
  · obtain ⟨s₁, old, run', slot, items, levels'⟩ := levels.insert_mem p inPart mem item
    obtain rfl := Option.some.inj (run'.symm.trans run)
    have keys := levels.sortedKeys
    rw [p.leaves] at stores keys
    exact ⟨_, up, levels', stores.insert_mem keys mem slot items fresh some⟩
  · obtain ⟨s₁, parts, up', run', items, levels', keys, entries⟩ :=
      (levels.insert_new three limit p inPart word mem item).1 split
    obtain rfl := Option.some.inj (run'.symm.trans run)
    have new : key ∉ leaves.flatMap Cell.keys := fun old => mem ((p.mem_keys levels.sorted).mp old)
    -- by the condition on the next field the item begins a chain
    have unread : s.indexRead order key = none := by
      have answers := levels.answers (show 0 < order by omega) stores inPart
      unfold Answers at answers
      split at answers
      · exact absurd ((stores.keys key).mpr answers.1) new
      · assumption
    have arity : c.pointers.length = c.keys.length := (levels.holds c mine).arity
    rw [p.leaves] at stores new
    exact ⟨_, up', levels', stores.insert_new new arity keys entries items (first unread) some⟩

theorem itemsOf_ne_nil : itemsOf calls key ≠ [] ↔ key ∈ calls.map Prod.fst := by
  unfold itemsOf
  simp [List.filter_eq_nil_iff, Prod.exists]

theorem IsTreeOf.run (three : 3 ≤ order) (limit : order ≤ 2 ^ 32) {more : List (Key × Ptr)}
    (h : IsTreeOf order s calls) (run : (btreeMachine order).Along (Fits order) s more s')
    (distinct : ((calls ++ more).map Prod.snd).Nodup) (some : null ∉ more.map Prod.snd) :
    IsTreeOf order s' (calls ++ more) := by
  induction run generalizing calls with
  | nil s =>
    rw [List.append_nil]
    exact h
  | @cons s t u call more fits next _ ih =>
    obtain ⟨key, item⟩ := call
    rw [List.map_cons, List.mem_cons, not_or] at some
    have fresh : item ∉ calls.map Prod.snd := by
      rw [List.map_append, List.map_cons, List.nodup_append] at distinct
      exact fun old => distinct.2.2 item old item List.mem_cons_self rfl
    have step := h.step three limit fits next fresh (Ne.symm some.1)
    rw [List.append_cons] at distinct ⊢
    exact ih step distinct some.2

/-- **Every order of insertions**. From the empty tree, after calls with 64-bit keys, distinct
items and fitting splits, the heap has a tree with the keys of the calls: leaves of one depth,
keys in order between their separators, right parents, no node too full, and linked leaves. Every
key is found with its items, the last one first. The next call ends inside of the arrays, with no
assertion that fails, if and only if its search stays in the partition and its split fits. -/
theorem index_insert_runs (three : 3 ≤ order) (limit : order ≤ 2 ^ 32) {s₀ : IndexBtree}
    (init : (btreeMachine order).init s₀) (run : (btreeMachine order).Along (Fits order) s₀ calls s)
    (distinct : (calls.map Prod.snd).Nodup) (some : null ∉ calls.map Prod.snd) :
    (∃ leaves up, HasLevels order s leaves up ∧
      ∀ key, key ∈ leaves.flatMap Cell.keys ↔ key ∈ calls.map Prod.fst) ∧
    (∀ key, InPartition s key → Answers order s key (itemsOf calls key)) ∧
    ∀ key item, key < 2 ^ 64 → ((s.indexInsert order key item).isSome ↔
      InPartition s key ∧ InsertFits order s key) := by
  obtain ⟨memory, itemNext, inPart, rfl⟩ := init
  obtain ⟨leaves, up, levels, stores⟩ :=
    (isTreeOf_init memory itemNext inPart).run three limit run distinct some
  refine ⟨⟨leaves, up, levels, fun key => ?_⟩, fun key inside => ?_, fun key item word => ?_⟩
  · rw [stores.keys key, itemsOf_ne_nil]
    rfl
  · exact levels.answers (show 0 < order by omega) stores inside
  · obtain ⟨l₁, l₂, c, p⟩ := levels.leafAt (show 0 < order by omega) key
    have mine : c ∈ leaves := by
      rw [p.leaves]
      simp
    by_cases inside : InPartition s key
    -- outside the partition the assertion of find_leaf fails
    swap
    · rw [p.indexInsert_none inside item]
      exact iff_of_false Bool.false_ne_true fun both => inside both.1
    rw [and_iff_right inside]
    by_cases mem : key ∈ c.keys
    · obtain ⟨s', -, done, -⟩ := levels.insert_mem p inside mem item
      rw [done, p.insertFits_iff (levels.holds c mine) inside]
      exact iff_of_true rfl fun _ new => absurd mem new
    · obtain ⟨does, never⟩ := levels.insert_new three limit p inside word mem item
      constructor
      · intro done
        by_contra not
        rw [never not] at done
        cases done
      · intro fits
        obtain ⟨s', -, -, done, -⟩ := does fits
        rw [done]
        rfl

/-- A memory of zeros. -/
def zeroTree : IndexBtree :=
  IndexBtree.init (fun _ => ⟨fun _ => null, false, fun _ => 0, null, 0, null⟩) (fun _ => null)
    fun _ => true

/-- The keys 10, 20, .., 160 split the root, and 81, .., 88 its first leaf. The new leaf comes in
front of the one key of the root. -/
def frontCalls : List (Key × Ptr) :=
  (List.range 16).map (fun i => (10 * (i + 1), 1000 + i)) ++
    (List.range 8).map fun i => (81 + i, 1016 + i)

/-- The calls before the last one, with the keys 170, .., 240 among them, of which the last splits
the second leaf: the new leaf comes behind the one key of the root. -/
def fittingCalls : List (Key × Ptr) :=
  (List.range 24).map (fun i => (10 * (i + 1), 1000 + i)) ++
    (List.range 7).map fun i => (81 + i, 1024 + i)

/-- Three leaves, of which the first is full. The keys are found; a key behind the last one can
come, but not 88. -/
theorem index_insert_runs_fitting :
    ∃ s, (btreeMachine 16).Along (Fits 16) zeroTree fittingCalls s ∧ s.keysOf s.root = [90, 170] ∧
      Answers 16 s 85 [1028] ∧ (s.indexInsert 16 250 900).isSome ∧
      ¬ (s.indexInsert 16 88 900).isSome := by
  obtain ⟨s, run, view⟩ := Machine.exists_along (btreeMachine 16) (Fits 16) zeroTree fittingCalls
    (fun s => (s.keysOf s.root, decide (InsertFits 16 s 250), decide (InsertFits 16 s 88)))
    ([90, 170], true, false) (by decide +kernel)
  simp only [Prod.mk.injEq, decide_eq_true_eq, decide_eq_false_iff_not] at view
  obtain ⟨root, fits, never⟩ := view
  have inPart := InPartition.of_run run fun _ => rfl
  have all := index_insert_runs (by decide) (by decide) ⟨_, _, _, rfl⟩ run (by decide) (by decide)
  exact ⟨s, run, root, all.2.1 85 (inPart 85),
    (all.2.2 250 900 (by decide)).mpr ⟨inPart 250, fits⟩,
    fun done => never ((all.2.2 88 900 (by decide)).mp done).2⟩

theorem index_insert_runs_front : ¬ ∀ (s₀ : IndexBtree) (calls : List (Key × Ptr)),
    (btreeMachine 16).init s₀ → (calls.map Prod.snd).Nodup →
      (∀ call ∈ calls, call.1 < 2 ^ 64 ∧ call.2 ≠ null ∧ s₀.itemNext call.2 = null) →
        ((btreeMachine 16).run s₀ calls).isSome = true := by
  intro claim
  have done := claim zeroTree frontCalls ⟨_, _, _, rfl⟩ (by decide) (by decide)
  have fails : ((btreeMachine 16).run zeroTree frontCalls).isSome = false := by decide +kernel
  rw [fails] at done
  cases done

end DBx1000.Btree
