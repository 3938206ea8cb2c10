import DBx1000.DlDetect.Detector
import Mathlib.Data.Fintype.Card

/-!
# Exactness of the deadlock detection

## Main result

`detect_cycle_exact`: the detection is exact on a table if the two comparisons of a transaction
id agree wherever the search meets an edge back into its path, and it is exact on all tables over
a set of transaction ids if and only if every id of the set survives the cast to 32 bits.

## Proof strategy

The nodes that the search has left without a loop are settled: their successors have been left
too, and none of them is on a cycle. This is kept by every call, because an edge back into the
stack would have been seen as a loop. Once a loop has been seen, the nodes left so far form a
path to the node at which the loop started, and the node with the fewest locks among them has
been noted; when the search leaves the start of the loop, the path closes to a cycle.
-/

namespace DBx1000.DlDetect

open Relation

namespace DetectData

variable {V : Nat} (d : DetectData V) (thd : Fin V) (txnid : BitVec 64) (lockNum : Int)

@[simp] theorem leave_visited : (d.leave thd txnid lockNum).visited = d.visited := by
  unfold leave
  dsimp only
  split <;> split <;> rfl

@[simp] theorem leave_recStack :
    (d.leave thd txnid lockNum).recStack = Function.update d.recStack thd false := by
  unfold leave
  dsimp only
  split <;> split <;> rfl

@[simp] theorem leave_loop : (d.leave thd txnid lockNum).loop = d.loop := by
  unfold leave
  dsimp only
  split <;> split <;> rfl

@[simp] theorem leave_loopstart : (d.leave thd txnid lockNum).loopstart = d.loopstart := by
  unfold leave
  dsimp only
  split <;> split <;> rfl

theorem leave_onloop :
    (d.leave thd txnid lockNum).onloop =
      if (thd.val : Int) = d.loopstart then false else d.onloop := by
  unfold leave
  dsimp only
  split <;> split <;> simp_all

/-- The number of locks is noted if it is smaller, and only on the loop. -/
theorem leave_minLockNum :
    (d.leave thd txnid lockNum).minLockNum =
      if d.loop ∧ d.onloop ∧ lockNum < d.minLockNum then lockNum else d.minLockNum := by
  unfold leave
  dsimp only
  split <;> split <;> rfl

theorem leave_minTxnid :
    (d.leave thd txnid lockNum).minTxnid =
      if d.loop ∧ d.onloop ∧ lockNum < d.minLockNum then txnid else d.minTxnid := by
  unfold leave
  dsimp only
  split <;> split <;> rfl

/-- The nodes that have not been visited. -/
def unvisited : Finset (Fin V) := Finset.univ.filter fun v => d.visited v = false

@[simp] theorem mem_unvisited {d : DetectData V} {v : Fin V} :
    v ∈ d.unvisited ↔ d.visited v = false := by
  simp [unvisited]

/-- The nodes that the search has left. -/
def Left (v : Fin V) : Prop := d.visited v = true ∧ d.recStack v = false

end DetectData

open DetectData

variable {V : Nat} [NeZero V] (dependency : Fin V → DepThd) (t : Fin V)

/-! ### States of the search -/

/-- The search has come from `u` to `v`, and has left the targets of the edges before. -/
def Passed (d : DetectData V) (v u : Fin V) : Prop :=
  ∃ e before after, (dependency u).adj = before ++ e :: after ∧ Registered dependency e ∧
    getThdidFromTxnid V e = v ∧
    ∀ e' ∈ before, Registered dependency e' → d.Left (getThdidFromTxnid V e')

/-- No loop has been seen, and `S` is the stack, its top first. -/
structure Searching (d : DetectData V) (S : List (Fin V)) : Prop where
  loop : d.loop = false
  least : d.minLockNum = 1000
  onStack : ∀ v, d.recStack v = true ↔ v ∈ S
  visited : ∀ v ∈ S, d.visited v = true
  start : ∀ v ∈ S.getLast?, v = t
  nodup : S.Nodup
  chain : List.IsChain (Passed dependency d) S
  reach : ∀ v ∈ S, ReflTransGen (WaitsFor dependency) t v
  settled : Cycle.Settled (WaitsFor dependency) d.Left

/-- The transaction that has been noted has the fewest locks among those of `P`. -/
def Best (d : DetectData V) (P : List (Fin V)) : Prop :=
  P = [] ∧ d.minLockNum = 1000 ∨
    ∃ m ∈ P, getThdidFromTxnid V d.minTxnid = m ∧ Registered dependency d.minTxnid ∧
      d.minLockNum = (dependency m).numLocks ∧
      ∀ p ∈ P, (dependency m).numLocks ≤ (dependency p).numLocks

/-- The search is on its way back to `w`, at which the loop starts, and has left `P`. -/
structure Unwinding (d : DetectData V) (S P : List (Fin V)) (w : Fin V) : Prop where
  loop : d.loop = true
  onloop : d.onloop = true
  start : d.loopstart = w.val
  mem : w ∈ S
  best : Best dependency d P
  nodup : P.Nodup
  apart : ∀ p ∈ P, p ∉ S

/-- The search has left the whole loop `c`. -/
structure Closed (d : DetectData V) (c : List (Fin V)) : Prop where
  loop : d.loop = true
  onloop : d.onloop = false
  cycle : CycleFrom dependency t c
  best : Best dependency d c

/-- Inside the node `u` a loop has been seen: the search has left a path from `u` to the start
of the loop, or the whole loop. -/
def LoopInside (d : DetectData V) (S : List (Fin V)) (u : Fin V) : Prop :=
  (∃ P w, Unwinding dependency d S P w ∧
    List.IsChain (WaitsFor dependency) (u :: (P ++ [w]))) ∨
  ∃ c, Closed dependency t d c

/-- The same after `u` has been left too. -/
def LoopBehind (d : DetectData V) (S : List (Fin V)) (u : Fin V) : Prop :=
  (∃ P w, Unwinding dependency d S (u :: P) w ∧
    List.IsChain (WaitsFor dependency) (u :: (P ++ [w]))) ∨
  ∃ c, Closed dependency t d c

variable {dependency t}

section Facts

variable {d : DetectData V} {S P : List (Fin V)} {u w : Fin V}

/-- What has been left leads neither to a cycle nor to the stack. -/
theorem Searching.clear (h : Searching dependency t d S) {edges : List (BitVec 64)}
    (left : ∀ e ∈ edges, Registered dependency e → d.Left (getThdidFromTxnid V e)) :
    Clear dependency S edges := by
  intro e he reg v reach
  have here := h.settled.reflTransGen (left e he reg) reach
  refine ⟨fun on => ?_, (h.settled v here).2⟩
  have on := (h.onStack v).mpr on
  rw [here.2] at on
  cases on

/-- The stack is a path to which the search comes. -/
theorem Searching.onSearch (h : Searching dependency t d (u :: S)) :
    OnSearch dependency t (u :: S) := by
  refine ⟨?_, h.nodup, h.chain.imp ?_⟩
  · have ⟨v, last⟩ : ∃ v, (u :: S).getLast? = some v :=
      Option.ne_none_iff_exists'.mp (by simp)
    rw [last, h.start v last]
  · rintro v w ⟨e, before, after, adj, reg, thd, left⟩
    exact ⟨e, before, after, adj, reg, thd, h.clear left⟩

/-- A way of coming to the top stays one while the search leaves more nodes. -/
theorem Passed.mono {d' : DetectData V} {v w : Fin V} (h : Passed dependency d v w)
    (more : ∀ v, d.Left v → d'.Left v) : Passed dependency d' v w := by
  obtain ⟨e, before, after, adj, reg, thd, left⟩ := h
  exact ⟨e, before, after, adj, reg, thd, fun e' he' reg' => more _ (left e' he' reg')⟩

/-- With the same stack, what has been left stays so. -/
theorem Searching.left_mono {d' : DetectData V} (h : Searching dependency t d S)
    (h' : Searching dependency t d' S) (more : ∀ v, d.visited v = true → d'.visited v = true)
    {v : Fin V} (left : d.Left v) : d'.Left v := by
  refine ⟨more v left.1, ?_⟩
  by_contra on
  rw [Bool.not_eq_false] at on
  have on := (h.onStack v).mpr ((h'.onStack v).mp on)
  rw [left.2] at on
  cases on

/-- Entering an unvisited node that the top of the stack waits for. -/
theorem Searching.enter (h : Searching dependency t d S) (fresh : d.visited u = false)
    (start : ∀ v ∈ (u :: S).getLast?, v = t)
    (chain : List.IsChain (Passed dependency d) (u :: S))
    (reach : ReflTransGen (WaitsFor dependency) t u) :
    Searching dependency t (d.enter u) (u :: S) := by
  -- a node that is entered has not been left, and all that have been are still
  have same (v : Fin V) : (d.enter u).Left v ↔ d.Left v := by
    change Function.update d.visited u true v = true ∧
      Function.update d.recStack u true v = false ↔ _
    rw [Function.update_apply, Function.update_apply]
    split
    · next e => simp [Left, e, fresh]
    · exact Iff.rfl
  constructor
  case loop => exact h.loop
  case least => exact h.least
  case onStack =>
    intro v
    change Function.update d.recStack u true v = true ↔ _
    rw [Function.update_apply]
    split
    · next e => simp [e]
    · next ne => simp [ne, h.onStack]
  case visited =>
    intro v hv
    change Function.update d.visited u true v = true
    rw [Function.update_apply]
    split
    · rfl
    · next ne => exact h.visited v ((List.mem_cons.mp hv).resolve_left ne)
  case start => exact start
  -- a node of the stack has been visited, and `u` has not
  case nodup =>
    refine List.nodup_cons.mpr ⟨fun mem => ?_, h.nodup⟩
    rw [h.visited u mem] at fresh
    cases fresh
  case chain => exact chain.imp fun v w passed => passed.mono fun v => (same v).mpr
  case reach =>
    intro v hv
    rcases List.mem_cons.mp hv with rfl | hv
    · exact reach
    · exact h.reach v hv
  case settled =>
    intro v hv
    have ⟨succ, acyclic⟩ := h.settled v ((same v).mp hv)
    exact ⟨fun w hw => (same w).mpr (succ w hw), acyclic⟩

omit [NeZero V] in
/-- Fewer nodes are unvisited after a node has been entered. -/
theorem card_unvisited_enter (fresh : d.visited u = false) :
    (d.enter u).unvisited.card < d.unvisited.card := by
  apply Finset.card_lt_card
  rw [Finset.ssubset_iff_of_subset]
  · refine ⟨u, mem_unvisited.mpr fresh, ?_⟩
    rw [mem_unvisited]
    change Function.update d.visited u true u ≠ false
    simp
  · intro v hv
    rw [mem_unvisited] at hv ⊢
    change Function.update d.visited u true v = false at hv
    rw [Function.update_apply] at hv
    split at hv
    · cases hv
    · exact hv

omit [NeZero V] in
/-- Visiting more nodes leaves no more of them unvisited. -/
theorem card_unvisited_mono {d' : DetectData V}
    (more : ∀ v, d.visited v = true → d'.visited v = true) :
    d'.unvisited.card ≤ d.unvisited.card := by
  apply Finset.card_le_card
  intro v hv
  rw [mem_unvisited] at hv ⊢
  by_contra seen
  rw [Bool.not_eq_false] at seen
  rw [more v seen] at hv
  cases hv

/-- A node all of whose successors have been left is settled when it is left. -/
theorem Searching.leave (h : Searching dependency t d (u :: S))
    (succ : ∀ v, WaitsFor dependency u v → d.Left v) (txnid : BitVec 64) (lockNum : Int) :
    Searching dependency t (d.leave u txnid lockNum) S ∧
      (d.leave u txnid lockNum).Left u := by
  have visited_u := h.visited u List.mem_cons_self
  have apart : u ∉ S := (List.nodup_cons.mp h.nodup).1
  have left_iff (v : Fin V) : (d.leave u txnid lockNum).Left v ↔ v = u ∨ d.Left v := by
    unfold DetectData.Left
    rw [leave_visited, leave_recStack, Function.update_apply]
    split
    · next e => simp [e, visited_u]
    · next ne => simp [ne]
  -- while `u` is on the stack it has not been left
  have on_u : ¬ d.Left u := by
    intro left
    have on : d.recStack u = true := (h.onStack u).mpr List.mem_cons_self
    rw [left.2] at on
    cases on
  refine ⟨?_, (left_iff u).mpr (.inl rfl)⟩
  constructor
  case loop =>
    rw [leave_loop]
    exact h.loop
  case least =>
    rw [leave_minLockNum, if_neg (fun on => by rw [h.loop] at on; cases on.1)]
    exact h.least
  case onStack =>
    intro v
    rw [leave_recStack, Function.update_apply]
    split
    · next e => simp [e, apart]
    · next ne => simp [h.onStack, ne]
  case visited =>
    intro v hv
    rw [leave_visited]
    exact h.visited v (List.mem_cons_of_mem _ hv)
  case start =>
    intro v hv
    refine h.start v ?_
    cases S with
    | nil => cases hv
    | cons w S => rwa [List.getLast?_cons_cons]
  case nodup => exact h.nodup.of_cons
  case chain => exact h.chain.tail.imp fun v w passed => passed.mono fun v left => (left_iff v).mpr (.inr left)
  case reach =>
    intro v hv
    exact h.reach v (List.mem_cons_of_mem _ hv)
  -- all that `u` waits for has been left before it
  case settled =>
    have inserted := h.settled.insert succ on_u
    intro v hv
    have ⟨succ, acyclic⟩ := inserted v ((left_iff v).mp hv)
    exact ⟨fun w hw => (left_iff w).mpr (succ w hw), acyclic⟩

/-- On the way back the noted transaction stays the one with the fewest locks. -/
theorem Best.leave (h : Best dependency d P) (loop : d.loop = true) (on : d.onloop = true)
    {txnid : BitVec 64} (thd : getThdidFromTxnid V txnid = u)
    (reg : Registered dependency txnid) (few : (dependency u).numLocks < 1000) :
    Best dependency (d.leave u txnid (dependency u).numLocks) (u :: P) := by
  unfold Best
  rw [leave_minLockNum, leave_minTxnid]
  right
  -- the transaction is noted if it has fewer locks than the one that has been
  by_cases less : (dependency u).numLocks < d.minLockNum
  · rw [if_pos ⟨loop, on, less⟩, if_pos ⟨loop, on, less⟩]
    refine ⟨u, List.mem_cons_self, thd, reg, rfl, ?_⟩
    intro p hp
    rcases List.mem_cons.mp hp with rfl | hp
    · exact le_refl _
    · rcases h with ⟨rfl, -⟩ | ⟨m, hm, -, -, locks, least⟩
      · cases hp
      · exact le_trans (le_of_lt (locks ▸ less)) (least p hp)
  · rw [if_neg (fun h => less h.2.2), if_neg (fun h => less h.2.2)]
    rcases h with ⟨rfl, start⟩ | ⟨m, hm, thd, reg, locks, least⟩
    · rw [start] at less
      exact absurd few less
    · refine ⟨m, List.mem_cons_of_mem _ hm, thd, reg, locks, ?_⟩
      intro p hp
      rcases List.mem_cons.mp hp with rfl | hp
      · exact locks ▸ not_lt.mp less
      · exact least p hp

/-- After the loop has been left nothing is noted any more. -/
theorem Closed.leave {c : List (Fin V)} (h : Closed dependency t d c) (txnid : BitVec 64)
    (lockNum : Int) : Closed dependency t (d.leave u txnid lockNum) c := by
  have off : ¬ (d.loop = true ∧ d.onloop = true ∧ lockNum < d.minLockNum) := by
    rintro ⟨-, on, -⟩
    rw [h.onloop] at on
    cases on
  constructor
  · rw [leave_loop]
    exact h.loop
  · rw [leave_onloop, h.onloop, ite_self]
  · exact h.cycle
  · have best := h.best
    unfold Best at best ⊢
    rw [leave_minLockNum, leave_minTxnid, if_neg off, if_neg off]
    exact best

/-- Leaving a node after a loop has been seen inside it. -/
theorem LoopInside.leave (h : LoopInside dependency t d (u :: S) u) (apart : u ∉ S)
    (reach : ReflTransGen (WaitsFor dependency) t u) {txnid : BitVec 64}
    (thd : getThdidFromTxnid V txnid = u) (reg : Registered dependency txnid)
    (few : (dependency u).numLocks < 1000) :
    LoopBehind dependency t (d.leave u txnid (dependency u).numLocks) S u := by
  rcases h with ⟨P, w, way, chain⟩ | ⟨c, found⟩
  · have best := way.best.leave way.loop way.onloop thd reg few
    have nodup : (u :: P).Nodup :=
      List.nodup_cons.mpr ⟨fun hu => way.apart u hu List.mem_cons_self, way.nodup⟩
    by_cases start : w = u
    · -- the loop starts here, and the path closes
      subst start
      right
      refine ⟨w :: P, ?_, ?_, ⟨⟨chain, nodup⟩, ?_⟩, best⟩
      · rw [leave_loop]
        exact way.loop
      · rw [leave_onloop, if_pos way.start.symm]
      · intro v hv
        apply reach.trans
        apply Cycle.reflTransGen_of_mem_chain chain
        rw [← List.cons_append]
        exact List.mem_append_left _ hv
    · -- the path back goes on below `u`
      left
      refine ⟨P, w, ?_, chain⟩
      constructor
      · rw [leave_loop]
        exact way.loop
      · rw [leave_onloop, way.start, if_neg]
        · exact way.onloop
        · intro e
          exact start (Fin.ext (by exact_mod_cast e.symm))
      · rw [leave_loopstart]
        exact way.start
      · exact (List.mem_cons.mp way.mem).resolve_left start
      · exact best
      · exact nodup
      · intro p hp
        rcases List.mem_cons.mp hp with rfl | hp
        · exact apart
        · exact fun hs => way.apart p hp (List.mem_cons_of_mem _ hs)
  · exact .inr ⟨c, found.leave txnid _⟩

/-- A loop seen in a node is a loop seen inside every node that waits for it. -/
theorem LoopBehind.inside (h : LoopBehind dependency t d S u) {p : Fin V}
    (edge : WaitsFor dependency p u) : LoopInside dependency t d S p := by
  rcases h with ⟨P, w, way, chain⟩ | closed
  · exact .inl ⟨u :: P, w, way, List.isChain_cons_cons.mpr ⟨edge, chain⟩⟩
  · exact .inr closed

theorem LoopBehind.loop (h : LoopBehind dependency t d S u) : d.loop = true := by
  rcases h with ⟨P, w, way, -⟩ | ⟨c, found⟩
  · exact way.loop
  · exact found.loop

end Facts

/-! ### The recursive calls -/

/-- What a call of `nextNode` for an unvisited node `u` has done. -/
def NodeDone (dependency : Fin V → DepThd) (t : Fin V) (d : DetectData V) (S : List (Fin V))
    (u : Fin V) (d' : DetectData V) : Prop :=
  (Searching dependency t d' S ∧ (∀ v, d.visited v = true → d'.visited v = true) ∧ d'.Left u) ∨
    LoopBehind dependency t d' S u

/-- What the loop of `nextNode` in the node `u` has done. -/
def EdgesDone (dependency : Fin V → DepThd) (t : Fin V) (d : DetectData V) (S : List (Fin V))
    (u : Fin V) (d' : DetectData V) : Prop :=
  (Searching dependency t d' (u :: S) ∧ (∀ v, d.visited v = true → d'.visited v = true) ∧
    ∀ e ∈ (dependency u).adj, Registered dependency e → d'.Left (getThdidFromTxnid V e)) ∨
  LoopInside dependency t d' (u :: S) u

/-- The recursive calls that the loop of a node makes do what they should. -/
def CallsDone (dependency : Fin V → DepThd) (t : Fin V)
    (next : BitVec 64 → DetectData V → Option (Bool × DetectData V)) (fuel : Nat) : Prop :=
  ∀ x d S, Registered dependency x → d.visited (getThdidFromTxnid V x) = false →
    Searching dependency t d S → (∀ v ∈ (getThdidFromTxnid V x :: S).getLast?, v = t) →
    List.IsChain (Passed dependency d) (getThdidFromTxnid V x :: S) →
    ReflTransGen (WaitsFor dependency) t (getThdidFromTxnid V x) →
    d.unvisited.card ≤ fuel →
    ∃ d', next x d = some (d'.loop, d') ∧
      NodeDone dependency t d S (getThdidFromTxnid V x) d'

section Calls

variable {d : DetectData V} {S : List (Fin V)} {u : Fin V}

/-- The edges `before` have been dealt with, and no loop has been seen. -/
theorem forEdges_spec {next : BitVec 64 → DetectData V → Option (Bool × DetectData V)}
    {fuel : Nat} (agree : Agree dependency t) (calls : CallsDone dependency t next fuel)
    {before edges : List (BitVec 64)} (adj : (dependency u).adj = before ++ edges)
    (passed : ∀ e ∈ before, Registered dependency e → d.Left (getThdidFromTxnid V e))
    (h : Searching dependency t d (u :: S)) (enough : d.unvisited.card ≤ fuel) :
    ∃ d', forEdges dependency next edges d = some d' ∧ EdgesDone dependency t d S u d' := by
  induction edges generalizing d before with
  | nil =>
    rw [List.append_nil] at adj
    exact ⟨d, rfl, .inl ⟨h, fun _ => id, adj ▸ passed⟩⟩
  | cons e rest ih =>
    have he : e ∈ (dependency u).adj := adj ▸ List.mem_append_right _ List.mem_cons_self
    have adj' : (dependency u).adj = (before ++ [e]) ++ rest := by
      rw [adj, List.append_assoc, List.singleton_append]
    -- by the condition the check of an edge into the stack asks for the transaction itself
    have same := agree u S h.onSearch e before rest adj (h.clear passed)
    -- once the target of `e` has been left, the rest of the loop follows by induction
    have further {d₁ : DetectData V} (h₁ : Searching dependency t d₁ (u :: S))
        (more : ∀ v, d.visited v = true → d₁.visited v = true)
        (left : Registered dependency e → d₁.Left (getThdidFromTxnid V e)) :
        ∃ d', forEdges dependency next rest d₁ = some d' ∧ EdgesDone dependency t d S u d' := by
      obtain ⟨d', run, done⟩ := ih adj' (fun e' he' reg => by
          rcases List.mem_append.mp he' with he' | he'
          · exact h.left_mono h₁ more (passed e' he' reg)
          · cases List.mem_singleton.mp he'
            exact left reg) h₁ (le_trans (card_unvisited_mono more) enough)
      refine ⟨d', run, done.imp_left ?_⟩
      rintro ⟨h', more', all⟩
      exact ⟨h', fun v hv => more' v (more v hv), all⟩
    unfold forEdges
    dsimp only
    split
    · next back =>
      -- an edge into the stack: it is not stale, and the loop starts at its target
      have on_stack := (h.onStack _).mp back.1
      have edge : WaitsFor dependency u (getThdidFromTxnid V e) :=
        ⟨e, he, rfl, (same on_stack).mp back.2⟩
      refine ⟨_, rfl, .inr (.inl ⟨[], getThdidFromTxnid V e, ?_, ?_⟩)⟩
      · exact ⟨rfl, rfl, rfl, on_stack, .inl ⟨rfl, h.least⟩, List.nodup_nil, fun _ => nofun⟩
      · exact List.isChain_cons_cons.mpr ⟨edge, List.isChain_singleton _⟩
    · next noback =>
      split
      · next fresh =>
        -- an edge to a node that has not been visited: the recursive call
        have edge : WaitsFor dependency u (getThdidFromTxnid V e) := ⟨e, he, rfl, fresh.2⟩
        have chain : List.IsChain (Passed dependency d) (getThdidFromTxnid V e :: u :: S) :=
          List.isChain_cons_cons.mpr
            ⟨⟨e, before, rest, adj, fresh.2, rfl, passed⟩, h.chain⟩
        have start : ∀ v ∈ (getThdidFromTxnid V e :: u :: S).getLast?, v = t := by
          rw [List.getLast?_cons_cons]
          exact h.start
        obtain ⟨d', run, done⟩ := calls e d (u :: S) fresh.2 fresh.1 h start chain
          ((h.reach u List.mem_cons_self).tail edge) enough
        rcases done with ⟨h', more, left⟩ | loop
        · rw [run, h'.loop]
          exact further h' more fun _ => left
        · rw [run, loop.loop]
          exact ⟨d', rfl, .inr (loop.inside edge)⟩
      · next seen =>
        -- an edge that is stale, or to a node that has been left
        refine further h (fun _ => id) fun reg => ⟨?_, ?_⟩
        · by_contra not
          rw [Bool.not_eq_true] at not
          exact seen ⟨not, reg⟩
        · by_contra on
          rw [Bool.not_eq_false] at on
          exact noback ⟨on, (same ((h.onStack _).mp on)).mpr reg⟩

/-- **The search of a node**: it returns, and either no loop has been seen and the node is
settled, or a loop has been seen. -/
theorem nextNode_spec (agree : Agree dependency t)
    (few : ∀ u, (dependency u).numLocks < 1000) (fuel : Nat) :
    CallsDone dependency t (nextNode dependency fuel) fuel := by
  -- the fuel is at least the number of nodes that have not been visited
  induction fuel with
  | zero =>
    intro x d S _ fresh _ _ _ _ enough
    have mem : getThdidFromTxnid V x ∈ d.unvisited := mem_unvisited.mpr fresh
    have pos := Finset.card_pos.mpr ⟨_, mem⟩
    omega
  | succ fuel ih =>
    intro x d S reg fresh h start chain reach enough
    have entered := h.enter fresh start chain reach
    have fewer := card_unvisited_enter fresh
    obtain ⟨d', run, done⟩ :=
      forEdges_spec agree ih (List.nil_append _).symm (fun _ he => by cases he) entered (by omega)
    have apart : getThdidFromTxnid V x ∉ S := (List.nodup_cons.mp entered.nodup).1
    refine ⟨d'.leave (getThdidFromTxnid V x) x
      (dependency (getThdidFromTxnid V x)).numLocks, ?_, ?_⟩
    · unfold nextNode
      dsimp only
      have current : ¬ (dependency (getThdidFromTxnid V x)).txnid ≠ x := not_not.mpr reg
      rw [fresh, if_neg Bool.false_ne_true, if_neg current, run]
      rfl
    · -- all edges have been followed, or one of them has found a loop
      rcases done with ⟨h', more, all⟩ | loop
      · left
        have ⟨left, here⟩ := h'.leave (by
            rintro v ⟨e, he, rfl, reg⟩
            exact all e he reg) x (dependency (getThdidFromTxnid V x)).numLocks
        refine ⟨left, ?_, here⟩
        intro v hv
        rw [leave_visited]
        apply more
        change Function.update d.visited _ true v = true
        rw [Function.update_apply]
        split
        · rfl
        · exact hv
      · exact .inr (loop.leave apart reach rfl reg (few _))

end Calls


/-! ### The detection -/

/-- If the two comparisons agree on the edges back that the search meets, it is exact. -/
theorem exact_of_agree {txnid : BitVec 64} (reg : Registered dependency txnid)
    (few : ∀ u, (dependency u).numLocks < 1000)
    (agree : Agree dependency (getThdidFromTxnid V txnid)) : Exact dependency txnid := by
  intro onloop loopstart
  set t := getThdidFromTxnid V txnid with ht
  have start : Searching dependency t (initData V onloop loopstart) [] :=
    { loop := rfl
      least := rfl
      onStack := fun v => by simp [initData]
      visited := fun _ => nofun
      start := fun _ => nofun
      nodup := List.nodup_nil
      chain := List.isChain_nil
      reach := fun _ => nofun
      settled := fun _ left => absurd left.1 Bool.false_ne_true }
  -- at the start no node has been visited
  have enough : (initData V onloop loopstart).unvisited.card ≤ V := by
    have le := Finset.card_le_univ (initData V onloop loopstart).unvisited
    rwa [Fintype.card_fin] at le
  obtain ⟨d, run, done⟩ := nextNode_spec agree few V txnid _ [] reg rfl start
    (fun v hv => (Option.some.inj hv).symm) (List.isChain_singleton _) ReflTransGen.refl enough
  rcases done with ⟨h, -, left⟩ | ⟨_, w, way, -⟩ | ⟨c, found⟩
  · -- nothing that is reached lies on a cycle
    refine ⟨0, none, ?_, .inl rfl, ?_, fun _ => rfl, nofun⟩
    · unfold detectCycle
      rw [if_neg Bool.false_ne_true, run, h.loop]
      rfl
    · refine ⟨nofun, ?_⟩
      rintro ⟨c, cycle, reach⟩
      exact (h.settled.no_cycle left cycle reach).elim
  · -- a loop does not start at the empty stack
    cases way.mem
  · -- the loop that has been found has a transaction with the fewest locks
    obtain ⟨m, hm, thd, regm, -, least⟩ : ∃ m ∈ c, getThdidFromTxnid V d.minTxnid = m ∧
        Registered dependency d.minTxnid ∧ d.minLockNum = (dependency m).numLocks ∧
        ∀ p ∈ c, (dependency m).numLocks ≤ (dependency p).numLocks := by
      rcases found.best with ⟨rfl, -⟩ | best
      · exact found.cycle.1.elim
      · exact best
    refine ⟨1, some m, ?_, .inr rfl, ?_, nofun, fun _ => ⟨c, found.cycle, m, hm, rfl, least⟩⟩
    · unfold detectCycle
      rw [if_neg Bool.false_ne_true, run, found.loop]
      have named : (dependency m).txnid = d.minTxnid := thd ▸ regm
      simp only [Option.map_some, if_true, thd, named]
    · exact ⟨fun _ => ⟨c, found.cycle⟩, fun _ => rfl⟩

/-- An id that survives the cast is compared in the same way twice. -/
theorem agree_of_fits (fits : ∀ u, ∀ e ∈ (dependency u).adj, Fits e) : Agree dependency t := by
  intro u _ _ e before after adj _ _
  rw [fits u e (adj ▸ List.mem_append_right _ List.mem_cons_self)]
  exact eq_comm

/-- Every thread has the transaction `x` registered, which waits for itself. -/
def selfLoop (V : Nat) (x : BitVec 64) : Fin V → DepThd := fun _ => ⟨[x], x, 0⟩

/-- The loop of a transaction whose id does not survive the cast is missed. -/
theorem selfLoop_missed {x : BitVec 64} (wide : ¬ Fits x) :
    ¬ Exact (selfLoop V x) x := by
  intro exact
  obtain ⟨result, victim, run, -, iff, -, -⟩ := exact false 0
  have found : ∃ c, CycleFrom (selfLoop V x) (getThdidFromTxnid V x) c := by
    have edge : WaitsFor (selfLoop V x) (getThdidFromTxnid V x) (getThdidFromTxnid V x) :=
      ⟨x, List.mem_singleton_self x, rfl, rfl⟩
    refine ⟨[getThdidFromTxnid V x], ⟨?_, List.nodup_singleton _⟩, ?_⟩
    · exact List.isChain_cons_cons.mpr ⟨edge, List.isChain_singleton _⟩
    · intro v hv
      rw [List.mem_singleton.mp hv]
  have missed : result = 0 := by
    obtain ⟨n, rfl⟩ : ∃ n, V = n + 1 := Nat.exists_eq_succ_of_ne_zero (NeZero.ne V)
    have narrow : ¬ asSInt32 x = x := wide
    simp [detectCycle, nextNode, forEdges, selfLoop, initData, DetectData.enter, narrow,
      DetectData.leave] at run
    exact run.1.symm
  rw [iff.mpr found] at missed
  cases missed

/-- **Exactness of the deadlock detection**. On a table of lock counts below 1000 the detection
from a registered transaction is exact if on every edge back into the path that a depth-first
search meets before it has seen a cycle, the comparison of 32 bits agrees with the one of 64
bits. It is exact on all tables whose
adjacency lists are made of the ids in `ids` if and only if all of these survive the cast. -/
theorem detect_cycle_exact (V : Nat) [NeZero V] :
    (∀ (dependency : Fin V → DepThd) (txnid : BitVec 64), Registered dependency txnid →
      (∀ u, (dependency u).numLocks < 1000) →
      Agree dependency (getThdidFromTxnid V txnid) → Exact dependency txnid) ∧
    ∀ ids : Set (BitVec 64),
      (∀ dependency : Fin V → DepThd, (∀ u, ∀ e ∈ (dependency u).adj, e ∈ ids) →
        (∀ u, (dependency u).numLocks < 1000) →
        ∀ txnid, Registered dependency txnid → Exact dependency txnid) ↔
      ∀ x ∈ ids, Fits x := by
  constructor
  · intro dependency txnid reg few agree
    exact exact_of_agree reg few agree
  · intro ids
    constructor
    · intro exact x hx
      -- an identifier that does not fit into an int misses the edge to itself
      by_contra wide
      have zero_lt_thousand : (0 : Int) < 1000 := by decide
      apply selfLoop_missed (V := V) wide
      refine exact (selfLoop V x) ?_ (fun _ => zero_lt_thousand) x rfl
      intro u e he
      rw [List.mem_singleton.mp he]
      exact hx
    · intro fits dependency sub few txnid reg
      exact exact_of_agree reg few (agree_of_fits fun u e he => fits e (sub u e he))

/-- Two transactions of two threads that wait for each other. -/
def crossing : Fin 2 → DepThd
  | 0 => ⟨[5#64], 4#64, 1⟩
  | 1 => ⟨[4#64], 5#64, 2⟩

/-- The first one waits for an old transaction of the second thread, whose id has the same low
32 bits as the current one. -/
def staleCrossing : Fin 2 → DepThd
  | 0 => ⟨[0x100000005#64], 4#64, 1⟩
  | 1 => ⟨[4#64], 5#64, 2⟩

/-- The search does not come to the second thread, so it never meets an edge back. -/
theorem agree_staleCrossing : Agree staleCrossing 0 := by
  intro u path search e before after adj _ back
  -- the edge of thread 0 is stale, so no path comes back to it
  have stays (v : Fin 2) : ¬ Comes staleCrossing (u :: path) v 0 := by
    rintro ⟨e, before, after, adj, reg, -⟩
    have mem : e ∈ (staleCrossing 0).adj := adj ▸ List.mem_append_right _ List.mem_cons_self
    rw [List.mem_singleton.mp mem] at reg
    exact absurd reg (by decide)
  have last : (0 : Fin 2) ∈ u :: path := List.mem_of_getLast? search.start
  obtain rfl : u = 0 := by
    rcases (ReflTransGen.cases_tail (Cycle.reflTransGen_of_mem_chain search.chain last)) with
      same | ⟨v, -, comes⟩
    · exact same.symm
    · exact (stays v comes).elim
  have mem : e ∈ (staleCrossing 0).adj := adj ▸ List.mem_append_right _ List.mem_cons_self
  rw [List.mem_singleton.mp mem] at back
  -- nor does thread 0 stand on the stack twice
  cases path with
  | nil => exact absurd back (by decide)
  | cons w path =>
    have chain := (List.isChain_cons_cons.mp search.chain).2
    have last : (0 : Fin 2) ∈ w :: path := by
      have start := search.start
      rw [List.getLast?_cons_cons] at start
      exact List.mem_of_getLast? start
    exact absurd last (List.nodup_cons.mp search.nodup).1

/-- A deadlock of two transactions, of which the one with the one lock is the victim, and a
table with an id above 2^32 that does no harm. -/
theorem detect_cycle_exact_crossing :
    (Exact crossing 4#64 ∧ detectCycle crossing false false 0 4#64 = some (1, some 0)) ∧
      Exact staleCrossing 4#64 ∧ detectCycle staleCrossing false false 0 4#64 = some (0, none) := by
  refine ⟨⟨(detect_cycle_exact 2).1 crossing 4#64 rfl ?_ ?_, by decide +kernel⟩,
    (detect_cycle_exact 2).1 staleCrossing 4#64 rfl ?_ agree_staleCrossing, by decide +kernel⟩
  · intro u
    match u with
    | 0 => decide
    | 1 => decide
  · apply agree_of_fits
    intro u e he
    match u with
    | 0 => rw [List.mem_singleton.mp he]; decide
    | 1 => rw [List.mem_singleton.mp he]; decide
  · intro u
    match u with
    | 0 => decide
    | 1 => decide

/-- The transaction 2^31 waits for itself, and the detection returns 0. -/
theorem detect_cycle_misses :
    Registered (selfLoop 1 0x80000000) 0x80000000 ∧
      (∀ u, (selfLoop 1 0x80000000 u).numLocks < 1000) ∧
      CycleFrom (selfLoop 1 0x80000000) 0 [0] ∧
      detectCycle (selfLoop 1 0x80000000) false false 0 0x80000000 = some (0, none) ∧
      ¬ Exact (selfLoop 1 0x80000000) 0x80000000 := by
  refine ⟨rfl, fun u => by simp [selfLoop], ⟨⟨?_, List.nodup_singleton _⟩, ?_⟩,
    by decide +kernel, selfLoop_missed (by decide)⟩
  · exact List.isChain_cons_cons.mpr
      ⟨⟨0x80000000, List.mem_singleton_self _, rfl, rfl⟩, List.isChain_singleton _⟩
  · intro v hv
    rw [List.mem_singleton.mp hv]

end DBx1000.DlDetect
