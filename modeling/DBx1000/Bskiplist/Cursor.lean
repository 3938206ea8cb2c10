import DBx1000.Library.Chain
import DBx1000.Bskiplist.Runs

/-!
# The cursor of the index

`IndexOLCBskiplist` stores its keys one higher than the caller has them, and chains the items of
one key. `index_next` goes along the chain of a key and then to the next key, which it takes from a
batch of pairs that a scan has filled.

## Main result

`index_enumerates`: the calls of `index_next` bring the items behind the place of the cursor, with
all later keys in order unless only those of one key are wanted. `index_next_stuck`: behind the
greatest key that the list can store the call does not come back.

## Proof strategy

`Indexed` relates the list to the contents of the index, and `Placed` a cursor to its place in them.
A call moves both by one item; a new batch is a scan, which is known from `Bskiplist.Scan`.
-/

namespace DBx1000.Bskiplist

open Program Hocc

/-- `OLC_BSKIPLIST_SCAN_BATCH`. -/
def scanBatch : Nat := 32

/-- What the index keeps for a thread: `cur_key_per_thd`, `cur_item_per_thd` and its
`OLCBskiplistScanCursor`, whose `count` is the length of the batch. -/
structure Cursor where
  curKey : Key
  curItem : Val
  batch : List (Key × Val)
  pos : Nat

/-- `key + 1` and `key - 1` of a `bsl_key_t`. -/
def keyUp (key : Key) : Key := (key + 1) % (keyMax + 1)

def keyDown (key : Key) : Key := (key + keyMax) % (keyMax + 1)

namespace IndexOLCBskiplist

def indexExist (fuel : Nat) (list : Bsl) (key : Key) : Prog Bool := do
  return (← bslGet fuel list (keyUp key)).isSome

/-- The store `item->next = nullptr`. -/
def unlink (item : Val) : Prog Unit := perform (.link item null)

def indexInsert (fuel : Nat) (list : Bsl) (key : Key) (item : Val) : Prog Unit := do
  unlink item
  let res ← bslInsert fuel list (keyUp key) item
  Program.Prog.assert (res = 1)

def indexRead (fuel : Nat) (list : Bsl) (key : Key) : Prog (Val × Cursor) := do
  let res ← bslGet fuel list (keyUp key)
  Program.Prog.assert (res.isSome = true)
  let item := res.getD 0
  return (item, ⟨key, item, [], 0⟩)

/-- `bsl_scan_batch_callback`, for all batches of a scan. -/
def fill (batches : List (List (Key × Val))) : List (Key × Val) :=
  batches.foldl (fun held range => held ++ range.take (scanBatch - held.length)) []

/-- The branch of `index_next` for a batch that is used up. -/
def refill (fuel : Nat) (list : Bsl) (c : Cursor) (m : Mem) : Option (Cursor × Mem) :=
  if c.pos ≥ c.batch.length then do
    let scanned ← (bslScanNBatch fuel list (keyUp (keyUp c.curKey)) scanBatch).run
      exec { m with output := [] }
    return ({ c with batch := fill scanned.2.output, pos := 0 },
      { scanned.2 with output := m.output })
  else some (c, m)

def indexNext (fuel : Nat) (list : Bsl) (samekey : Bool) (c : Cursor) (m : Mem) :
    Option (Val × Cursor × Mem) :=
  let nextItem := if c.curItem ≠ null then m.itemNext c.curItem else null
  if samekey = false ∧ nextItem = null then do
    let filled ← refill fuel list c m
    let c := filled.1
    if c.pos < c.batch.length then
      let e := c.batch.getD c.pos (0, 0)
      return (e.2, { c with curKey := keyDown e.1, curItem := e.2, pos := c.pos + 1 },
        filled.2)
    else return (null, { c with curItem := null }, filled.2)
  else some (nextItem, { c with curItem := nextItem }, m)

def insertAll (fuel : Nat) (list : Bsl) : List (Key × Val) → Prog Unit
  | [] => pure ()
  | call :: calls => do
    indexInsert fuel list call.1 call.2
    insertAll fuel list calls

/-- Calls of `index_next` one after another, and the items that they return. -/
def nexts (fuel : Nat) (list : Bsl) : List Bool → Cursor → Mem → Option (List Val)
  | [], _, _ => some []
  | samekey :: flags, c, m => do
    let step ← indexNext fuel list samekey c m
    let items ← nexts fuel list flags step.2.1 step.2.2
    return step.1 :: items

end IndexOLCBskiplist

/-! ### What the caller sees -/

/-- The keys of the caller, in order, each with its items, the latest first. -/
abbrev Contents := List (Key × List Val)

namespace Contents

def insert (idx : Contents) (key : Key) (item : Val) : Contents :=
  Assoc.put key (item :: (Assoc.find key idx).getD []) idx

def insertAll (calls : List (Key × Val)) : Contents :=
  calls.foldl (fun idx call => idx.insert call.1 call.2) []

/-- The contents behind a key. -/
abbrev behind (idx : Contents) (key : Key) : Contents := idx.filter (key < ·.1)

end Contents

/-- A place in the contents: the items of the current key that are left, and the keys behind it. -/
structure Walk where
  items : List Val
  later : Contents

namespace Walk

/-- The items of the current key, then those of the next key unless `samekey` is set. -/
def next (w : Walk) (samekey : Bool) : Val × Walk :=
  match w.items with
  | item :: items => (item, ⟨items, w.later⟩)
  | [] =>
    if samekey then (null, w)
    else match w.later with
      | (_, item :: items) :: later => (item, ⟨items, later⟩)
      | _ => (null, w)

def nexts (w : Walk) : List Bool → List Val
  | [] => []
  | samekey :: flags => (w.next samekey).1 :: (w.next samekey).2.nexts flags

/-- Without `samekey` all items come, key by key, and then nothing any more. -/
theorem nexts_all (w : Walk) (some : ∀ g ∈ w.later, g.2 ≠ []) (n : Nat) :
    w.nexts (List.replicate n false) =
      (w.items ++ w.later.flatMap Prod.snd ++ List.replicate n null).take n := by
  induction n generalizing w with
  | zero => rfl
  | succ n ih =>
    obtain ⟨items, later⟩ := w
    -- one NULL less behind the items makes no difference within `n`
    have pad (xs : List Val) : (xs ++ List.replicate (n + 1) null).take n =
        (xs ++ List.replicate n null).take n := by
      rw [List.replicate_succ', ← List.append_assoc, List.take_append_of_le_length]
      rw [List.length_append, List.length_replicate]
      omega
    have step (item : Val) (items : List Val) (later : Contents) (some : ∀ g ∈ later, g.2 ≠ []) :
        item :: (Walk.mk items later).nexts (List.replicate n false) =
          (item :: items ++ later.flatMap Prod.snd ++
            List.replicate (n + 1) null).take (n + 1) := by
      rw [ih _ some, List.cons_append, List.cons_append, List.take_succ_cons, pad]
    cases items with
    | cons item items => exact step item items later some
    -- the items of the key have been read, so the next key comes
    | nil =>
      cases later with
      | nil =>
        change null :: (Walk.mk [] []).nexts (List.replicate n false) = _
        rw [ih _ some]
        simp [List.replicate_succ]
      | cons g later =>
        obtain ⟨k, items⟩ := g
        cases items with
        | nil => exact absurd rfl (some (k, []) List.mem_cons_self)
        | cons item items =>
          exact step item items later fun g hg => some g (List.mem_cons_of_mem _ hg)

end Walk

/-! ### The items in the list -/

/-- A pointer that is not null. -/
def ptr (p : Val) : Option Val := if p = null then none else some p

/-- From `p` the `next` fields lead through these items, to the end. -/
def Heads (next : Val → Val) (p : Val) (items : List Val) : Prop :=
  LinkedList.Chain (fun v => ptr (next v)) (ptr p) items

theorem heads_nil {next : Val → Val} {p : Val} : Heads next p [] ↔ p = null := by
  rw [Heads, LinkedList.chain_nil, ptr]
  split
  · next none => exact ⟨fun _ => none, fun _ => rfl⟩
  · next some => exact ⟨fun never => (by cases never), fun none => absurd none some⟩

theorem heads_cons {next : Val → Val} {p item : Val} {items : List Val} :
    Heads next p (item :: items) ↔ p = item ∧ p ≠ null ∧ Heads next (next item) items := by
  rw [Heads, LinkedList.chain_cons, ptr]
  split
  · next none => exact ⟨fun h => (by cases h.1), fun h => absurd none h.2.1⟩
  · next some =>
    constructor
    · rintro ⟨same, rest⟩
      exact ⟨Option.some.inj same, some, rest⟩
    · rintro ⟨rfl, -, rest⟩
      exact ⟨rfl, rest⟩

theorem Heads.congr {next next' : Val → Val} {p : Val} {items : List Val} (h : Heads next p items)
    (same : ∀ a ∈ items, next' a = next a) : Heads next' p items :=
  LinkedList.Chain.congr h fun a ha => congrArg ptr (same a ha)

/-- The list has a pair for each key of the contents: the key one higher, and the first item. -/
structure Indexed (s : Store) (idx : Contents) : Prop where
  pairs : s.pairs = idx.map (Prod.map (· + 1) (·.headD null))
  ascending : Assoc.Ascending idx
  items : ∀ g ∈ idx, g.2 ≠ [] ∧ Heads s.itemNext (g.2.headD null) g.2
  keys : ∀ g ∈ idx, g.1 + 2 < keyMax

theorem keyUp_eq {key : Nat} (small : key < keyMax) : keyUp key = key + 1 :=
  Nat.mod_eq_of_lt (Nat.succ_lt_succ small)

theorem keyDown_eq {key : Nat} (small : key < keyMax) : keyDown (key + 1) = key := by
  rw [keyDown, Nat.add_assoc, Nat.add_comm 1, Nat.add_mod_right]
  exact Nat.mod_eq_of_lt (Nat.lt_succ_of_lt small)

theorem proper_succ {key : Nat} (small : key + 2 < keyMax) :
    keyUp key = key + 1 ∧ Proper (key + 1) := by
  have inside : key + 1 < keyMax := Nat.lt_of_succ_lt small
  exact ⟨keyUp_eq (Nat.lt_of_succ_lt inside), Nat.succ_pos key, inside⟩

theorem next_start {key : Nat} (inside : key + 1 < keyMax) : keyUp (keyUp key) = key + 2 := by
  rw [keyUp_eq (Nat.lt_of_succ_lt inside), keyUp_eq inside]

section Insert

variable {s : Store} {idx : Contents} {key : Key} {item : Val}

theorem Contents.mem_insert {g : Key × List Val} : g ∈ idx.insert key item ↔
    g = (key, item :: (Assoc.find key idx).getD []) ∨ g ∈ idx ∧ g.1 ≠ key := Assoc.mem_put

theorem Indexed.insert (h : Indexed s idx) (small : key + 2 < keyMax) (notNull : item ≠ null)
    (new : ∀ g ∈ idx, item ∉ g.2) :
    Indexed (({ s with itemNext := Function.update s.itemNext item null } : Store).insert (key + 1)
      item).2 (idx.insert key item) := by
  have found : Assoc.find (key + 1) s.pairs = (Assoc.find key idx).map (·.headD null) := by
    rw [h.pairs]
    exact Assoc.find_map (fun _ _ => Nat.add_lt_add_iff_right) key idx
  have proper := (proper_succ small).2
  -- the `next` fields after the insertion
  obtain ⟨t, eqT⟩ : ∃ t, t = (({ s with itemNext := Function.update s.itemNext item null } :
    Store).insert (key + 1) item).2 := ⟨_, rfl⟩
  rw [← eqT]
  rw [Store.insert, if_pos proper, found] at eqT
  have pairs : t.pairs = Assoc.put (key + 1) item s.pairs := by rw [eqT]
  have others : ∀ a, a ≠ item → t.itemNext a = s.itemNext a := by
    intro a ne
    rw [eqT]
    cases Assoc.find key idx with
    | none => exact Function.update_of_ne ne ..
    | some items =>
      change Function.update (Function.update s.itemNext item null) item _ a = _
      rw [Function.update_of_ne ne, Function.update_of_ne ne]
  -- the new item points to the one that was first
  have here : t.itemNext item = ((Assoc.find key idx).getD []).headD null := by
    rw [eqT]
    cases Assoc.find key idx with
    | none => exact Function.update_self ..
    | some items => exact Function.update_self ..
  refine ⟨?_, h.ascending.put, fun g hg => ?_, fun g hg => ?_⟩
  · rw [pairs, h.pairs]
    exact Assoc.put_map (fun _ _ => Nat.add_lt_add_iff_right) key
      (item :: (Assoc.find key idx).getD []) idx
  · rcases Contents.mem_insert.mp hg with rfl | ⟨mem, -⟩
    · refine ⟨List.cons_ne_nil _ _, heads_cons.mpr ⟨rfl, notNull, ?_⟩⟩
      rw [here]
      cases eq : Assoc.find key idx with
      | none => exact heads_nil.mpr rfl
      | some items =>
        have mem := Assoc.mem_of_find eq
        exact (h.items _ mem).2.congr fun a ha => others a fun same => new _ mem (same ▸ ha)
    · obtain ⟨notNil, heads⟩ := h.items g mem
      refine ⟨notNil, heads.congr fun a ha => others a fun eq => new g mem (eq ▸ ha)⟩
  · rcases Contents.mem_insert.mp hg with rfl | ⟨mem, -⟩
    · exact small
    · exact h.keys g mem

end Insert

/-! ### The calls of the index -/

theorem fill_eq (batches : List (List (Key × Val))) :
    IndexOLCBskiplist.fill batches = batches.flatten.take scanBatch := by
  have cut (xs ys : List (Key × Val)) :
      (xs.take scanBatch ++ ys).take scanBatch = (xs ++ ys).take scanBatch := by
    rcases Nat.le_total xs.length scanBatch with fits | full
    · rw [List.take_of_length_le fits]
    · rw [List.take_append_of_le_length full, List.take_append_of_le_length, List.take_take,
        Nat.min_self]
      rw [List.length_take]
      exact Nat.le_min.mpr ⟨Nat.le_refl _, full⟩
  -- each batch fills what is left of the array
  have turn : ∀ held : List (Key × Val), held.length ≤ scanBatch →
      batches.foldl (fun held range => held ++ range.take (scanBatch - held.length)) held =
        (held ++ batches.flatten).take scanBatch := by
    induction batches with
    | nil =>
      intro held fits
      rw [List.foldl_nil, List.flatten_nil, List.append_nil, List.take_of_length_le fits]
    | cons range batches ih =>
      intro held fits
      have filled : held ++ range.take (scanBatch - held.length) =
          (held ++ range).take scanBatch := by
        rw [List.take_append, List.take_of_length_le fits]
      rw [List.foldl_cons, filled, ih _ (List.length_take_le _ _), List.flatten_cons, cut,
        List.append_assoc]
  exact turn [] (Nat.zero_le _)

variable {fuel : Nat} {list : Bsl} {s : Store} {idx : Contents} {m : Mem} {key : Key} {item : Val}

theorem Indexed.find (h : Indexed s idx) :
    Assoc.find (key + 1) s.pairs = (Assoc.find key idx).map (·.headD null) := by
  rw [h.pairs]
  exact Assoc.find_map (fun _ _ => Nat.add_lt_add_iff_right) key idx

theorem ends_unlink {Q : Unit → Mem → Prop} : (IndexOLCBskiplist.unlink item).Ends exec Q m ↔
    Q () { m with itemNext := Function.update m.itemNext item null } := Iff.rfl

theorem indexInsert_ends (h : Indexed s idx) (rep : Represents list s m) (enough : Enough fuel s)
    (small : key + 2 < keyMax) (notNull : item ≠ null) (new : ∀ g ∈ idx, item ∉ g.2) :
    (IndexOLCBskiplist.indexInsert fuel list key item).Ends exec (fun _ t => ∃ s',
      s'.pairs.length ≤ s.pairs.length + 1 ∧ Represents list s' t ∧
      Indexed s' (idx.insert key item)) m := by
  obtain ⟨wraps, proper⟩ := proper_succ small
  rw [IndexOLCBskiplist.indexInsert, wraps, Prog.ends_bind, ends_unlink]
  have linked : Represents list { s with itemNext := Function.update s.itemNext item null }
      { m with itemNext := Function.update m.itemNext item null } := by
    obtain ⟨⟨lv, has, flats⟩, items, output⟩ := rep
    exact ⟨⟨lv, has.congr (fun a _ => ⟨rfl, id⟩) (Nat.le_refl _), flats⟩,
      congrArg (Function.update · item null) items, output⟩
  rw [Prog.ends_bind]
  refine (bslInsert_ends linked enough).mono ?_
  rintro code t ⟨answer, rep'⟩
  rw [Prog.ends_assert]
  have one : code = 1 := by
    rw [Store.insert, if_pos proper] at answer
    exact Answer.code.inj answer
  exact ⟨one, _, Store.length_call { s with itemNext := Function.update s.itemNext item null }
    (.insert (key + 1) item), rep', h.insert small notNull new⟩

/-- Where a cursor is: its item was the last one, the batch goes on with the later keys. -/
structure Placed (s : Store) (idx : Contents) (c : Cursor) (w : Walk) : Prop where
  items : Heads s.itemNext (if c.curItem ≠ null then s.itemNext c.curItem else null) w.items
  later : w.later = idx.behind c.curKey
  batch : c.batch.drop c.pos <+: w.later.map (Prod.map (· + 1) (·.headD null))
  small : c.curKey + 2 < keyMax

theorem indexRead_ends {items : List Val} (h : Indexed s idx) (rep : Represents list s m)
    (enough : Enough fuel s) (there : Assoc.find key idx = some (item :: items)) :
    (IndexOLCBskiplist.indexRead fuel list key).Ends exec (fun r t => r.1 = item ∧
      Represents list s t ∧ Placed s idx r.2 ⟨items, idx.behind key⟩) m := by
  have mem := Assoc.mem_of_find there
  have small := h.keys _ mem
  obtain ⟨wraps, proper⟩ := proper_succ small
  obtain ⟨-, notNull, heads⟩ := heads_cons.mp (h.items _ mem).2
  rw [IndexOLCBskiplist.indexRead, wraps, Prog.ends_bind]
  refine (bslGet_ends rep enough).mono ?_
  rintro res t ⟨answer, rep'⟩
  rw [Store.get, if_pos proper, h.find, there] at answer
  obtain rfl : res = some item := Answer.value.inj answer
  rw [Prog.ends_bind, Prog.ends_assert]
  refine ⟨rfl, rfl, rep', ?_, rfl, List.nil_prefix, small⟩
  change Heads _ (if item ≠ null then _ else _) _
  rw [if_pos (show item ≠ null from notNull)]
  exact heads

section Next

variable {c : Cursor} {w : Walk} {samekey : Bool}

/-- The scan of a cursor that has used up its batch brings the pairs behind its key. -/
theorem Indexed.since (h : Indexed s idx) {key : Nat} :
    Assoc.since (key + 2) s.pairs =
      (idx.behind key).map (Prod.map (· + 1) (·.headD null)) := by
  rw [h.pairs]
  exact Assoc.since_map (f := (· + 1)) (g := (·.headD null))
    (fun _ _ => Nat.add_lt_add_iff_right) (key + 1) idx

theorem Represents.setOutput (rep : Represents list s m) (out : List (List (Key × Val))) :
    Represents list { s with output := out.flatten } { m with output := out } := by
  obtain ⟨⟨lv, has, flats⟩, items, -⟩ := rep
  exact ⟨⟨lv, has.congr (fun a _ => ⟨rfl, id⟩) (Nat.le_refl _), flats⟩, items, rfl⟩

theorem refill_ends (h : Indexed s idx) (rep : Represents list s m) (enough : Enough fuel s)
    (p : Placed s idx c w) : ∃ c' m', IndexOLCBskiplist.refill fuel list c m = some (c', m') ∧
      Represents list s m' ∧ Placed s idx c' w ∧
      (c'.batch.drop c'.pos = [] → w.later = []) := by
  unfold IndexOLCBskiplist.refill
  split
  · -- the batch is used up, and the scan goes on behind the key
    next used =>
    have start := next_start (Nat.lt_of_succ_lt p.small)
    obtain ⟨_, t, ran, rep'⟩ := Prog.ends_iff.mp
      (bslScanNBatch_ends (rep.setOutput []) enough (.inl p.small))
    rw [start, ran]
    have batch : IndexOLCBskiplist.fill t.output =
        (w.later.map (Prod.map (· + 1) (·.headD null))).take scanBatch := by
      rw [fill_eq, rep'.output, p.later, ← h.since]
      exact List.take_of_length_le (List.length_take_le _ _)
    refine ⟨_, _, rfl, ?_, ⟨p.items, p.later, ?_, p.small⟩, fun none => ?_⟩
    · have back := rep'.setOutput m.output
      rw [rep.output] at back
      exact back
    · rw [List.drop_zero, batch]
      exact List.take_prefix _ _
    · rw [List.drop_zero, batch] at none
      cases later : w.later with
      | nil => rfl
      | cons g later =>
        rw [later] at none
        cases none
  · -- the batch has keys left
    next more =>
    refine ⟨c, m, rfl, rep, p, fun none => ?_⟩
    exact absurd (List.drop_eq_nil_iff.mp none) more

/-- The keys behind the first key of those behind another one. -/
theorem later_tail {g : Key × List Val} {later : Contents} (sorted : Assoc.Ascending idx)
    (eq : idx.behind key = g :: later) :
    g ∈ idx ∧ later = idx.behind g.1 := by
  have mem : g ∈ idx.behind key := eq ▸ List.mem_cons_self
  have above : key < g.1 := of_decide_eq_true (List.mem_filter.mp mem).2
  refine ⟨(List.mem_filter.mp mem).1, ?_⟩
  have tail : Assoc.Ascending (g :: later) := eq ▸ List.Pairwise.filter _ sorted
  have cut : (idx.behind key).behind g.1 = idx.behind g.1 := by
    unfold Contents.behind
    rw [List.filter_filter]
    refine List.filter_congr fun e _ => ?_
    have both : g.1 < e.1 → key < e.1 := Nat.lt_trans above
    simpa using both
  rw [← cut, eq, Contents.behind, List.filter_cons, if_neg (by simp)]
  exact (List.filter_eq_self.mpr fun e he => decide_eq_true
    ((List.pairwise_cons.mp tail).1 e he)).symm

/-- `index_next` goes to the next place, as the caller sees the contents. -/
theorem indexNext_ends (h : Indexed s idx) (rep : Represents list s m) (enough : Enough fuel s)
    (p : Placed s idx c w) : ∃ c' m', IndexOLCBskiplist.indexNext fuel list samekey c m =
      some ((w.next samekey).1, c', m') ∧ Represents list s m' ∧
      Placed s idx c' (w.next samekey).2 := by
  have link : (if c.curItem ≠ null then m.itemNext c.curItem else null) =
      if c.curItem ≠ null then s.itemNext c.curItem else null := by rw [rep.itemNext]
  obtain ⟨items, later⟩ := w
  unfold IndexOLCBskiplist.indexNext
  rw [link]
  cases items with
  -- the key has another item
  | cons item items =>
    obtain ⟨next, notNull, heads⟩ := heads_cons.mp p.items
    rw [next] at notNull ⊢
    rw [if_neg fun both => notNull both.2]
    refine ⟨{ c with curItem := item }, m, rfl, rep, ?_, p.later, p.batch, p.small⟩
    change Heads _ (if item ≠ null then _ else _) _
    rw [if_pos notNull]
    exact heads
  | nil =>
    rw [heads_nil.mp p.items]
    cases samekey with
    -- only items of the same key are asked for
    | true =>
      rw [if_neg fun both => Bool.false_ne_true both.1.symm]
      exact ⟨_, m, rfl, rep, heads_nil.mpr rfl, p.later, p.batch, p.small⟩
    | false =>
      -- the next key of the batch, which is filled again when it is used up
      rw [if_pos ⟨rfl, rfl⟩]
      obtain ⟨c', m', filled, rep', p', last⟩ := refill_ends h rep enough p
      rw [filled]
      cases later with
      | nil =>
        have none := List.prefix_nil.mp p'.batch
        have past := List.drop_eq_nil_iff.mp none
        refine ⟨{ c' with curItem := null }, m', ?_, rep', heads_nil.mpr rfl, p'.later, p'.batch,
          p'.small⟩
        change (if c'.pos < c'.batch.length then _ else _) = _
        rw [if_neg (Nat.not_lt.mpr past)]
        rfl
      | cons g later =>
        obtain ⟨mem, tail⟩ := later_tail h.ascending p'.later.symm
        obtain ⟨k, items⟩ := g
        obtain ⟨notNil, heads⟩ := h.items _ mem
        obtain ⟨item, items, rfl⟩ := List.exists_cons_of_ne_nil notNil
        obtain ⟨-, notNull, rest⟩ := heads_cons.mp heads
        have more : c'.pos < c'.batch.length := by
          by_contra none
          cases last (List.drop_eq_nil_iff.mpr (Nat.not_lt.mp none))
        have split := List.drop_eq_getElem_cons more
        have ahead := p'.batch
        rw [split] at ahead
        obtain ⟨here, behind⟩ := List.cons_prefix_cons.mp ahead
        have small := h.keys _ mem
        have back : keyDown (k + 1) = k :=
          keyDown_eq (Nat.lt_of_succ_lt (Nat.lt_of_succ_lt small))
        refine ⟨{ c' with curKey := k, curItem := item, pos := c'.pos + 1 }, m', ?_, rep', ?_, tail,
          behind, small⟩
        · change (if c'.pos < c'.batch.length then _ else _) = _
          rw [if_pos more, List.getD_eq_getElem _ _ more, here]
          change some (item, (⟨keyDown (k + 1), item, c'.batch, c'.pos + 1⟩ : Cursor), m') =
            some (item, ⟨k, item, c'.batch, c'.pos + 1⟩, m')
          rw [back]
        · change Heads _ (if item ≠ null then _ else _) _
          rw [if_pos (show item ≠ null from notNull)]
          exact rest

end Next

/-! ### Runs of the index -/

theorem insertAll_ends {calls : List (Key × Val)} (h : Indexed s idx) (rep : Represents list s m)
    (levels : maxLevel < fuel) (room : s.pairs.length + calls.length + 1 < fuel)
    (small : ∀ call ∈ calls, call.1 + 2 < keyMax) (notNull : ∀ call ∈ calls, call.2 ≠ null)
    (distinct : (calls.map Prod.snd).Nodup) (new : ∀ call ∈ calls, ∀ g ∈ idx, call.2 ∉ g.2) :
    (IndexOLCBskiplist.insertAll fuel list calls).Ends exec (fun _ t => ∃ s',
      s'.pairs.length ≤ s.pairs.length + calls.length ∧ Represents list s' t ∧
      Indexed s' (calls.foldl (fun idx call => idx.insert call.1 call.2) idx)) m := by
  -- the items are distinct, so each is new when it is inserted
  induction calls generalizing s idx m with
  | nil => exact ⟨s, Nat.le_refl _, rep, h⟩
  | cons call calls ih =>
    rw [List.length_cons] at room
    obtain ⟨other, distinct⟩ := List.nodup_cons.mp distinct
    rw [IndexOLCBskiplist.insertAll, Prog.ends_bind]
    apply (indexInsert_ends h rep ⟨levels, by omega⟩ (small _ List.mem_cons_self)
      (notNull _ List.mem_cons_self) (new _ List.mem_cons_self)).mono
    rintro - t ⟨s', more, rep', h'⟩
    have behind {d : Key × Val} (hd : d ∈ calls) : d ∈ call :: calls := List.mem_cons_of_mem _ hd
    apply (ih h' rep' (by omega) (fun d hd => small d (behind hd))
      (fun d hd => notNull d (behind hd)) distinct ?_).mono
    · rintro - t' ⟨s'', more', rep'', h''⟩
      exact ⟨s'', by rw [List.length_cons]; omega, rep'', h''⟩
    · intro d hd g hg mem
      -- an item of another key, or the new one, or behind the new one
      rcases Contents.mem_insert.mp hg with rfl | ⟨old, -⟩
      · rcases List.mem_cons.mp mem with same | old
        · exact other (same ▸ List.mem_map_of_mem hd)
        · cases eq : Assoc.find call.1 idx with
          | none =>
            rw [eq] at old
            cases old
          | some items =>
            rw [eq] at old
            exact new d (behind hd) _ (Assoc.mem_of_find eq) old
      · exact new d (behind hd) g old mem

theorem nexts_ends {flags : List Bool} {c : Cursor} {w : Walk} (h : Indexed s idx)
    (rep : Represents list s m) (enough : Enough fuel s) (p : Placed s idx c w) :
    IndexOLCBskiplist.nexts fuel list flags c m = some (w.nexts flags) := by
  induction flags generalizing c w m with
  | nil => rfl
  | cons samekey flags ih =>
    obtain ⟨c', m', step, rep', p'⟩ := indexNext_ends h rep enough p
    rw [IndexOLCBskiplist.nexts, step]
    change (IndexOLCBskiplist.nexts fuel list flags c' m').bind _ = _
    rw [ih rep' p']
    rfl

/-- An index with these items, and a cursor that reads one of its keys: the calls of `index_next`
bring what the caller sees behind that place, and without `samekey` all of it in key order. -/
theorem index_enumerates {calls : List (Key × Val)} {items : List Val} (memory : m.fresh ≠ null)
    (levels : maxLevel < fuel) (room : calls.length + 1 < fuel)
    (small : ∀ call ∈ calls, call.1 + 2 < keyMax) (notNull : ∀ call ∈ calls, call.2 ≠ null)
    (distinct : (calls.map Prod.snd).Nodup)
    (there : Assoc.find key (Contents.insertAll calls) = some (item :: items)) :
    ∃ list c t, (do
      let list ← bslNew
      IndexOLCBskiplist.insertAll fuel list calls
      let read ← IndexOLCBskiplist.indexRead fuel list key
      return (list, read)).run exec m = some ((list, item, c), t) ∧
      (∀ flags, IndexOLCBskiplist.nexts fuel list flags c t = some
        (Walk.nexts ⟨items, (Contents.insertAll calls).behind key⟩ flags)) ∧
      ∀ n, IndexOLCBskiplist.nexts fuel list (List.replicate n false) c t = some
        ((items ++ ((Contents.insertAll calls).behind key).flatMap Prod.snd ++
          List.replicate n null).take n) := by
  -- the three parts of the program one after the other
  have ends : Prog.Ends exec (do
      let list ← bslNew
      IndexOLCBskiplist.insertAll fuel list calls
      let read ← IndexOLCBskiplist.indexRead fuel list key
      return (list, read))
      (fun r t => r.2.1 = item ∧ ∃ s, Enough fuel s ∧ Represents r.1 s t ∧
        Indexed s (Contents.insertAll calls) ∧
        Placed s (Contents.insertAll calls) r.2.2
          ⟨items, (Contents.insertAll calls).behind key⟩) m := by
    rw [Prog.ends_bind]
    apply (bslNew_ends memory).mono
    intro list t rep
    have empty : Indexed m.store [] :=
      ⟨rfl, List.Pairwise.nil, fun g hg => absurd hg List.not_mem_nil,
        fun g hg => absurd hg List.not_mem_nil⟩
    rw [Prog.ends_bind]
    apply (insertAll_ends empty rep levels (by simpa using room) small notNull distinct
      fun _ _ g hg => absurd hg List.not_mem_nil).mono
    rintro - t' ⟨s', more, rep', h'⟩
    have enough : Enough fuel s' := ⟨levels, by
      rw [List.length_nil, Nat.zero_add] at more
      omega⟩
    rw [Prog.ends_bind]
    apply (indexRead_ends h' rep' enough there).mono
    rintro ⟨read, c⟩ t'' ⟨rfl, rep'', p⟩
    exact ⟨rfl, s', enough, rep'', h', p⟩
  obtain ⟨⟨list, read, c⟩, t, ran, rfl, s', enough, rep, h, p⟩ := Prog.ends_iff.mp ends
  refine ⟨list, c, t, ran, fun flags => nexts_ends h rep enough p, fun n => ?_⟩
  have all := Walk.nexts_all ⟨items, (Contents.insertAll calls).behind key⟩
    (fun g hg => (h.items g (List.mem_of_mem_filter hg)).1) n
  rw [← all]
  exact nexts_ends h rep enough p

theorem index_enumerates_three : ∃ list c t, (do
      let list ← bslNew
      IndexOLCBskiplist.insertAll 10 list [(3, 20), (7, 21), (3, 22)]
      let read ← IndexOLCBskiplist.indexRead 10 list 3
      return (list, read)).run exec Mem.blank = some ((list, 22, c), t) ∧
      (∀ flags, IndexOLCBskiplist.nexts 10 list flags c t = some
        (Walk.nexts ⟨[20], (Contents.insertAll [(3, 20), (7, 21), (3, 22)]).behind 3⟩
          flags)) ∧
      ∀ n, IndexOLCBskiplist.nexts 10 list (List.replicate n false) c t = some
        (([20] ++ ((Contents.insertAll [(3, 20), (7, 21), (3, 22)]).behind 3).flatMap Prod.snd ++
          List.replicate n null).take n) :=
  index_enumerates (by decide) (by decide) (by decide) (by decide) (by decide) (by decide)
    (by decide)

/-! ### The last key -/

/-- Behind the greatest key that an index can hold, `index_next` does not come back. -/
theorem index_next_stuck {rs : List Request} {c : Cursor} {turns : Nat} (memory : m.fresh ≠ null)
    (levels : maxLevel < fuel) (keys : rs.length + 1 < fuel) (allowed : ∀ r ∈ rs, r.Allowed)
    (last : c.curKey + 2 = keyMax) (used : c.batch.length ≤ c.pos)
    (ended : c.curItem = null ∨ (m.store.calls rs).2.itemNext c.curItem = null) : ∃ list t, (do
      let list ← bslNew
      let _ ← session fuel list rs
      return list).run exec m = some (list, t) ∧
      IndexOLCBskiplist.indexNext turns list false c t = none := by
  obtain ⟨list, t, ran, -, h⟩ := session_list memory levels keys allowed
  refine ⟨list, t, ran, ?_⟩
  have link : (if c.curItem ≠ null then t.itemNext c.curItem else null) = null := by
    rw [h.itemNext]
    split
    · next there => exact ended.resolve_left there
    · rfl
  unfold IndexOLCBskiplist.indexNext
  rw [link, if_pos ⟨rfl, rfl⟩, IndexOLCBskiplist.refill, if_pos used,
    next_start (Nat.lt_of_succ_le last.le), last]
  obtain ⟨⟨lv, has, flats⟩, items, output⟩ := h.setOutput []
  -- the refill is a scan from the greatest key
  have stuck :
      (bslScanNBatch turns list keyMax scanBatch).run exec { t with output := [] } = none :=
    has.scan_none (by decide)
  change ((bslScanNBatch turns list keyMax scanBatch).run exec { t with output := [] } >>= _) >>= _
    = _
  rw [stuck]
  rfl

theorem index_next_stuck_one : ∃ list t, (do
    let list ← bslNew
    let _ ← session 10 list [.insert (keyMax - 1) 20]
    return list).run exec Mem.blank = some (list, t) ∧
    IndexOLCBskiplist.indexNext 100 list false ⟨keyMax - 2, 20, [], 0⟩ t = none :=
  index_next_stuck (by decide) (by decide) (by decide) (by simp [Request.Allowed]) (by decide)
    (by decide) (.inr rfl)

end DBx1000.Bskiplist
