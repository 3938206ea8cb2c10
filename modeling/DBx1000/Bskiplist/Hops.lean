import Mathlib.Logic.Relation
import DBx1000.Bskiplist.Traversal

/-!
# Optimistic hops

A traversal of the list among writers that lock, modify and unlock nodes, and readers that come
and go. A scene is the memory together with its past, so a statement about a move that has been
accepted can speak of all memories since the load of the version.

## Main result

`hops_sound`: in every interleaving in which no version counter goes back, the moves accepted by
a traversal are sound if and only if a scan has not moved to a next node under a version with the
writer bit.

## Proof strategy

`Kept` is what the lock words guarantee: since a version without the writer bit was loaded,
either the node has not been held at all, or its word is ahead of that version. So a validation
that succeeds excludes the second case. The programs then only have to show that what they have
read is right if the node has not been held since (`Reading`), and that the version of an accepted
move has no writer bit.
-/

namespace DBx1000.Bskiplist

open Program Hocc

/-! ### Scenes -/

def Mem.setCtrl (m : Mem) (n : Addr) (w : Hocc64) : Mem :=
  { m with ctrl := Function.update m.ctrl n w }

def Mem.setNode (m : Mem) (n : Addr) (d : Node) : Mem :=
  { m with node := Function.update m.node n d }

@[simp] theorem Mem.setCtrl_ctrl (m : Mem) (n : Addr) (w : Hocc64) :
    (m.setCtrl n w).ctrl = Function.update m.ctrl n w := rfl
@[simp] theorem Mem.setCtrl_node (m : Mem) (n : Addr) (w : Hocc64) :
    (m.setCtrl n w).node = m.node := rfl
@[simp] theorem Mem.setNode_ctrl (m : Mem) (n : Addr) (d : Node) :
    (m.setNode n d).ctrl = m.ctrl := rfl
@[simp] theorem Mem.setNode_node (m : Mem) (n : Addr) (d : Node) :
    (m.setNode n d).node = Function.update m.node n d := rfl

/-- What a step of the traversal leaves behind in the past. -/
inductive Event
  | loaded (n : Addr) (v : Hocc64)
  | accepted (n : Addr) (v : Hocc64) (move : Move)
  | other

def event : (o : Op) → o.Result → Event
  | .loadVersion n, v => .loaded n v
  | .validate n v (some move), (valid : Bool) => if valid then .accepted n v move else .other
  | _, _ => .other

/-- The memory, and all memories before it, each with the step that was taken there. -/
structure Scene where
  mem : Mem
  past : List (Mem × Event)

namespace Scene

def after (s : Scene) (m : Mem) (e : Event) : Scene := ⟨m, (s.mem, e) :: s.past⟩

/-- The traversal has loaded a version of the node. -/
def Visited (s : Scene) (n : Addr) : Prop := ∃ m v, (m, .loaded n v) ∈ s.past

/-- A step of a reader or a writer. -/
inductive Steps (s : Scene) : Mem → Prop
  /-- `hocc_write_lock`, or `hocc_write_lock_evicting` with the retry bit, up to the wait for the
  readers. -/
  | lock (n : Addr) (more : Hocc64) (choice : more = 0 ∨ more = hoccRetryBit)
    (free : hasWriter (s.mem.ctrl n) = false) :
    Steps s (s.mem.setCtrl n (s.mem.ctrl n ||| hoccWriterBit ||| more))
  | modify (n : Addr) (d : Node) (held : hasWriter (s.mem.ctrl n) = true)
    (drained : hasReaders (s.mem.ctrl n) = false) : Steps s (s.mem.setNode n d)
  | unlock (n : Addr) (held : hasWriter (s.mem.ctrl n) = true) :
    Steps s (s.mem.setCtrl n (hoccUnlocked (s.mem.ctrl n)))
  | enter (n : Addr) (free : hasWriter (s.mem.ctrl n) = false) :
    Steps s (s.mem.setCtrl n (s.mem.ctrl n + hoccReaderUnit))
  | leave (n : Addr) : Steps s (s.mem.setCtrl n (s.mem.ctrl n - hoccReaderUnit))
  /-- `bsl_node_alloc`, at an address that the traversal cannot have seen in its epoch. -/
  | alloc (n : Addr) (new : ¬ s.Visited n) :
    Steps s ((s.mem.setCtrl n hoccInit).setNode n Node.zero)
  /-- A step that touches no node. -/
  | elsewhere (m : Mem) (ctrl : m.ctrl = s.mem.ctrl) (node : m.node = s.mem.node) : Steps s m

def Others (s t : Scene) : Prop := ∃ m, s.Steps m ∧ t = s.after m .other

end Scene

/-- A call of the traversal. -/
def call (o : Op) (s : Scene) : o.Result × Scene :=
  ((exec o s.mem).1, s.after (exec o s.mem).2 (event o (exec o s.mem).1))

/-! ### Soundness of a move -/

/-- Run alone on a node with these contents, the program gives this result. -/
def Yields {α : Type} (n : Addr) (p : Prog α) (d : Node) (a : α) : Prop :=
  ∀ m : Mem, m.node n = d → p.run exec m = some (a, m)

/-- The contents of the node lead to this move. -/
def LeadsTo (n : Addr) (d : Node) : Move → Prop
  | .next header target => d.nextHeader = header ∧ d.next = target
  | .child key target => ∃ rank, Yields n (findRank n d.numElts key) d rank ∧ d.slots rank = target
  | .found key value => ∃ rank, Yields n (findRank n d.numElts key) d rank ∧
      d.keys rank = key ∧ d.slots rank = value
  | .absent key => ∃ rank, Yields n (findRank n d.numElts key) d rank ∧ d.keys rank ≠ key
  | .first target => d.slots 0 = target

/-- Since the version was loaded, no writer has held the node, and its contents are those of
now. -/
def Unheld (s : Scene) (n : Addr) (v : Hocc64) : Prop :=
  ∀ later m earlier, s.past = later ++ (m, .loaded n v) :: earlier →
    ∀ t ∈ s.mem :: m :: later.map Prod.fst,
      hasWriter (t.ctrl n) = false ∧ t.node n = s.mem.node n

/-- A move accepted now, after the load of this version, was read from one unlocked state. -/
structure Sound (s : Scene) (n : Addr) (v : Hocc64) (move : Move) : Prop where
  loaded : ∃ m, (m, .loaded n v) ∈ s.past
  unheld : Unheld s n v
  reads : LeadsTo n (s.mem.node n) move

/-- All moves accepted so far were sound when they were accepted. -/
def AllSound (s : Scene) : Prop :=
  ∀ later m n v move earlier, s.past = later ++ (m, .accepted n v move) :: earlier →
    Sound ⟨m, earlier⟩ n v move

/-- No step from the first memory of the past on takes the version counter of a visited node
back: it has neither run over nor been borrowed from. -/
def Onward : Mem → List (Mem × Event) → Prop
  | _, [] => True
  | m, (m', _) :: past =>
    (∀ n, Scene.Visited ⟨m', past⟩ n → version (m'.ctrl n) ≤ version (m.ctrl n)) ∧ Onward m' past

/-- The moves to a next node have been accepted under versions without the writer bit. -/
def NextTested (s : Scene) : Prop :=
  ∀ m n v header target, (m, .accepted n v (.next header target)) ∈ s.past → hasWriter v = false

/-! ### The traversals -/

inductive Traversal
  | get | insert
  | found (child : Addr)
  | delete | scan | scanBatch

namespace Traversal

def prog (fuel : Nat) (list : Bsl) (key : Key) : Traversal → Prog Unit
  | get => do let _ ← getTraversal fuel list key
  | insert => do let _ ← insertTraversal fuel list key
  | found child => do let _ ← foundTraversal fuel child
  | delete => do let _ ← deleteTraversal fuel list key
  | scan => do let _ ← scanTraversal fuel list key
  | scanBatch => do let _ ← scanBatchTraversal fuel list key

/-- Does it test the writer bit before it moves to a next node? -/
def tested : Traversal → Bool
  | scan | scanBatch => false
  | _ => true

/-- An interleaving of one traversal, from any memory, with steps of others. -/
def Reaches (t : Traversal) (fuel : Nat) (list : Bsl) (key : Key) (m : Mem)
    (c : Prog Unit × Scene) : Prop :=
  Relation.ReflTransGen (Prog.Step call Scene.Others) (t.prog fuel list key, ⟨m, []⟩) c

end Traversal

/-! ### What the lock words guarantee -/

/-- The word has counted more sections than a version, or has been locked in that version. -/
def Ahead (v w : Hocc64) : Prop :=
  version v < version w ∨ version v = version w ∧ hasWriter w = true

/-- Now and in these memories no writer holds the node, and its contents are those of now. -/
def Calm (n : Addr) (now : Mem) (before : List Mem) : Prop :=
  ∀ t ∈ now :: before, hasWriter (t.ctrl n) = false ∧ t.node n = now.node n

/-- Since a version without the writer bit was loaded the node has not been held, or its word is
ahead of the version. -/
def Kept (s : Scene) : Prop :=
  ∀ n v, hasWriter v = false → ∀ later m earlier, s.past = later ++ (m, .loaded n v) :: earlier →
    version v = version (s.mem.ctrl n) ∧ Calm n s.mem (m :: later.map Prod.fst) ∨
      Ahead v (s.mem.ctrl n)

/-- What a step can do to a node that has been visited. -/
theorem Scene.Steps.cases_at {s : Scene} {m : Mem} {n : Addr} (h : s.Steps m)
    (visited : s.Visited n) :
    hasWriter (m.ctrl n) = hasWriter (s.mem.ctrl n) ∧
        (hasWriter (s.mem.ctrl n) = false → m.node n = s.mem.node n) ∨
      version (m.ctrl n) = version (s.mem.ctrl n) ∧ hasWriter (m.ctrl n) = true ∨
      version (m.ctrl n) ≠ version (s.mem.ctrl n) := by
  cases h with
  -- the writer bit is set and the version stays
  | lock n' more choice free =>
    by_cases here : n = n'
    · subst here
      have low : version more = 0 := by rcases choice with rfl | rfl <;> decide
      have one : hasWriter hoccWriterBit = true := by decide
      refine .inr (.inl ?_)
      rw [Mem.setCtrl_ctrl, Function.update_self, version_or low, version_or (by decide),
        hasWriter_or, hasWriter_or, one, Bool.or_true, Bool.true_or]
      exact ⟨rfl, rfl⟩
    · exact .inl (by simp [here])
  -- only a node whose writer bit is set is modified
  | modify n' d held drained =>
    refine .inl ⟨rfl, fun free => ?_⟩
    have other : n ≠ n' := by
      rintro rfl
      rw [held] at free
      cases free
    exact Function.update_of_ne other _ _
  -- the version moves on
  | unlock n' held =>
    by_cases here : n = n'
    · subst here
      refine .inr (.inr ?_)
      rw [Mem.setCtrl_ctrl, Function.update_self]
      exact version_hoccUnlocked_ne _
    · exact .inl (by simp [here])
  | enter n' free =>
    by_cases here : n = n'
    · subst here
      exact .inl (by simp [hasWriter_add_readerUnit])
    · exact .inl (by simp [here])
  | leave n' =>
    by_cases here : n = n'
    · subst here
      exact .inl (by simp [hasWriter_sub_readerUnit])
    · exact .inl (by simp [here])
  -- a node that has been visited is not allocated again
  | alloc n' new =>
    have other : n ≠ n' := by
      rintro rfl
      exact new visited
    exact .inl (by simp [other])
  | elsewhere _ ctrl node => exact .inl (by simp [ctrl, node])

/-- A step that does not take the version back keeps a word ahead. -/
theorem Ahead.step {s : Scene} {m : Mem} {n : Addr} {v : Hocc64} (ahead : Ahead v (s.mem.ctrl n))
    (h : s.Steps m) (visited : s.Visited n)
    (onward : version (s.mem.ctrl n) ≤ version (m.ctrl n)) : Ahead v (m.ctrl n) := by
  unfold Ahead at *
  rcases ahead with more | ⟨same, held⟩
  · exact .inl (by omega)
  · rcases h.cases_at visited with ⟨writer, -⟩ | ⟨-, locked⟩ | unlocked
    · rcases Nat.eq_or_lt_of_le onward with eq | lt
      · exact .inr ⟨by omega, by rw [writer, held]⟩
      · exact .inl (by omega)
    · rcases Nat.eq_or_lt_of_le onward with eq | lt
      · exact .inr ⟨by omega, locked⟩
      · exact .inl (by omega)
    · exact .inl (by omega)

/-- A step leaves a calm node calm, or its word gets ahead. -/
theorem Calm.step {s : Scene} {m : Mem} {n : Addr} {v : Hocc64} {before : List Mem}
    (calm : Calm n s.mem before) (same : version v = version (s.mem.ctrl n)) (h : s.Steps m)
    (visited : s.Visited n) (onward : version (s.mem.ctrl n) ≤ version (m.ctrl n)) :
    version v = version (m.ctrl n) ∧ Calm n m (s.mem :: before) ∨ Ahead v (m.ctrl n) := by
  have free : hasWriter (s.mem.ctrl n) = false := (calm s.mem (List.mem_cons_self ..)).1
  unfold Ahead
  rcases h.cases_at visited with ⟨writer, kept⟩ | ⟨eq, locked⟩ | unlocked
  · rcases Nat.eq_or_lt_of_le onward with eq | lt
    · refine .inl ⟨by omega, fun t mem => ?_⟩
      rcases List.mem_cons.mp mem with rfl | mem
      · exact ⟨by rw [writer, free], rfl⟩
      · rw [kept free]
        exact calm t mem
    · exact .inr (.inl (by omega))
  · exact .inr (.inr ⟨by omega, locked⟩)
  · exact .inr (.inl (by omega))

/-- What is kept over one step; a version that it loads is the word of the node. -/
theorem Kept.after {s : Scene} {m : Mem} {e : Event} (kept : Kept s) (h : s.Steps m)
    (onward : ∀ n, s.Visited n → version (s.mem.ctrl n) ≤ version (m.ctrl n))
    (loads : ∀ n v, e = .loaded n v → v = s.mem.ctrl n ∧ m = s.mem) : Kept (s.after m e) := by
  intro n v tested later m' earlier split
  cases later with
  -- the word that has just been loaded
  | nil =>
    obtain ⟨head, -⟩ := List.cons.inj split
    obtain ⟨rfl, rfl⟩ := Prod.mk.inj head
    obtain ⟨rfl, rfl⟩ := loads n v rfl
    refine .inl ⟨rfl, fun t mem => ?_⟩
    have now : t = s.mem := by simpa [Scene.after] using mem
    rw [now]
    exact ⟨tested, rfl⟩
  | cons last later =>
    obtain ⟨rfl, rest⟩ := List.cons.inj split
    have visited : s.Visited n := ⟨m', v, by rw [rest]; simp⟩
    rcases kept n v tested later m' earlier rest with ⟨same, calm⟩ | ahead
    · -- while the version stays the node does
      rcases calm.step same h visited (onward n visited) with ⟨same', calm'⟩ | ahead
      · refine .inl ⟨same', fun t mem => calm' t ?_⟩
        simp only [List.map_cons, List.mem_cons] at mem ⊢
        tauto
      · exact .inr ahead
    · exact .inr (ahead.step h visited (onward n visited))

/-- A validation that succeeds says that the node has not been held. -/
theorem Kept.unheld {s : Scene} {n : Addr} {v : Hocc64} (kept : Kept s)
    (tested : hasWriter v = false) (valid : hoccValidate (s.mem.ctrl n) v = true) :
    Unheld s n v := by
  intro later m earlier split
  obtain ⟨same, writer⟩ := (hoccValidate_iff _ _).mp valid
  rcases kept n v tested later m earlier split with ⟨-, calm⟩ | more | ⟨-, held⟩
  · exact calm
  · omega
  · rw [writer, tested] at held
    cases held

/-! ### Knowledge about a node -/

/-- A fact that no step takes back. -/
def Stable (P : Scene → Prop) : Prop := ∀ s m e, P s → P (s.after m e)

/-- The version has been loaded, and if no writer has held the node since then, its contents are
as described. -/
structure Reading (n : Addr) (v : Hocc64) (φ : Node → Prop) (s : Scene) : Prop where
  loaded : ∃ m, (m, .loaded n v) ∈ s.past
  known : Unheld s n v → φ (s.mem.node n)

theorem Unheld.before {s : Scene} {m : Mem} {e : Event} {n : Addr} {v : Hocc64}
    (h : Unheld (s.after m e) n v) (loaded : ∃ m, (m, .loaded n v) ∈ s.past) :
    Unheld s n v ∧ s.mem.node n = m.node n := by
  -- a memory since a load in the past of `s`, seen from the step after it
  have since (later : List (Mem × Event)) (m' : Mem) (earlier : List (Mem × Event))
      (split : s.past = later ++ (m', .loaded n v) :: earlier) (t : Mem)
      (mem : t ∈ s.mem :: m' :: later.map Prod.fst) :
      hasWriter (t.ctrl n) = false ∧ t.node n = m.node n := by
    refine h ((s.mem, e) :: later) m' earlier (congrArg (_ :: ·) split) t ?_
    simp only [List.map_cons, List.mem_cons] at mem ⊢
    tauto
  obtain ⟨m', mem⟩ := loaded
  obtain ⟨later, earlier, split⟩ := List.append_of_mem mem
  have now : s.mem.node n = m.node n :=
    (since later m' earlier split s.mem (List.mem_cons_self ..)).2
  refine ⟨fun later m' earlier split t mem => ?_, now⟩
  rw [now]
  exact since later m' earlier split t mem

theorem Reading.stable (n : Addr) (v : Hocc64) (φ : Node → Prop) : Stable (Reading n v φ) := by
  intro s m e reading
  refine ⟨reading.loaded.imp fun _ mem => List.mem_cons_of_mem _ mem, fun unheld => ?_⟩
  obtain ⟨before, same⟩ := unheld.before reading.loaded
  rw [show (s.after m e).mem.node n = s.mem.node n from same.symm]
  exact reading.known before

theorem Reading.mono {n : Addr} {v : Hocc64} {φ ψ : Node → Prop} {s : Scene}
    (h : Reading n v φ s) (sub : ∀ d, φ d → ψ d) : Reading n v ψ s :=
  ⟨h.loaded, fun unheld => sub _ (h.known unheld)⟩

theorem Stable.and {P P' : Scene → Prop} (h : Stable P) (h' : Stable P') :
    Stable fun s => P s ∧ P' s :=
  fun s m e both => ⟨h s m e both.1, h' s m e both.2⟩

theorem stable_const (c : Prop) : Stable fun _ => c := fun _ _ _ h => h

/-! ### Traversals among others -/

/-- What a traversal may rely on at a call: the lock words, and that it does not move to a next
node under a version with the writer bit if it does not test it. -/
def Met (tested : Bool) (o : Op) (s : Scene) : Prop :=
  Kept s ∧ ∀ n v header target, o = .validate n v (some (.next header target)) →
    hoccValidate (s.mem.ctrl n) v = true → tested = false → hasWriter v = false

/-- A call is a step of a reader, and sound if it accepts a move. -/
def Demand (o : Op) (s : Scene) : Prop :=
  s.Steps (exec o s.mem).2 ∧ ∀ n v move, o = .validate n v (some move) →
    hoccValidate (s.mem.ctrl n) v = true → Sound s n v move

abbrev Rely : Scene → Scene → Prop := Relation.ReflTransGen Scene.Others

/-- Whatever others do, the program meets the demand and gives `Q`. -/
abbrev SafeIn (tested : Bool) {α : Type} (p : Prog α) (Q : α → Scene → Prop) (s : Scene) : Prop :=
  p.Safe call Rely (Met tested) Demand Q s

theorem Stable.rely {P : Scene → Prop} (stable : Stable P) {s t : Scene} (st : Rely s t)
    (h : P s) : P t := by
  induction st with
  | refl => exact h
  | tail _ other ih =>
    obtain ⟨m, -, rfl⟩ := other
    exact stable _ m .other ih

variable {tested : Bool} {s : Scene} {P : Scene → Prop} {n : Addr} {v : Hocc64} {φ : Node → Prop}

theorem safe_bind {α β : Type} {p : Prog α} {f : α → Prog β} {Q : α → Scene → Prop}
    {Q' : β → Scene → Prop} (h : SafeIn tested p Q s)
    (next : ∀ a t, Q a t → SafeIn tested (f a) Q' t) : SafeIn tested (p >>= f) Q' s :=
  Prog.Safe.bind (fun _ => .refl) (h.mono next)

theorem safe_pure {α : Type} {a : α} {Q : α → Scene → Prop} (stable : Stable (Q a))
    (h : Q a s) : SafeIn tested (pure a) Q s :=
  fun _ st => stable.rely st h

/-- A call that leaves the memory as it is and accepts no move. -/
theorem safe_quiet {o : Op} {Q : o.Result → Scene → Prop} (stable : Stable P)
    (after : ∀ r, Stable (Q r)) (same : ∀ m, (exec o m).2 = m)
    (quiet : ∀ n v move, o ≠ .validate n v (some move))
    (gives : ∀ t, P t → Q (exec o t.mem).1 (t.after t.mem (event o (exec o t.mem).1))) (h : P s) :
    SafeIn tested (perform o) Q s := by
  refine Prog.safe_op (fun _ _ st => stable.rely st) (fun r _ _ st => (after r).rely st)
    (fun t pre _ => ⟨⟨?_, fun n v move eq => absurd eq (quiet n v move)⟩, ?_⟩) h
  · rw [same]
    exact .elsewhere _ rfl rfl
  · change Q (exec o t.mem).1 (t.after (exec o t.mem).2 _)
    rw [same]
    exact gives t pre

theorem safe_loadVersion (stable : Stable P) (h : P s) :
    SafeIn tested (loadVersion n) (fun v t => P t ∧ Reading n v (fun _ => True) t) s := by
  refine safe_quiet stable (fun v => stable.and (Reading.stable n v _)) (fun _ => rfl)
    (fun _ _ _ eq => nomatch eq) (fun t pre => ⟨stable t _ _ pre, ?_, fun _ => trivial⟩) h
  exact ⟨t.mem, List.mem_cons_self ..⟩

theorem safe_load (f : Node → Nat) (h : Reading n v φ s) :
    SafeIn tested (perform (.load n f)) (fun x t => Reading n v (fun d => φ d ∧ f d = x) t) s :=
  safe_quiet (Reading.stable n v φ) (fun _ => Reading.stable n v _) (fun _ => rfl)
    (fun _ _ _ eq => nomatch eq)
    (fun t pre => ⟨(Reading.stable n v φ t t.mem .other pre).loaded, fun unheld =>
      ⟨(Reading.stable n v φ t t.mem .other pre).known unheld, rfl⟩⟩) h

theorem safe_validate (stable : Stable P) (h : P s) :
    SafeIn tested (validate n v none) (fun _ => P) s :=
  safe_quiet stable (fun _ => stable) (fun _ => rfl) (fun _ _ _ eq => nomatch eq)
    (fun t pre => stable t _ _ pre) h

/-- A move is sound if what has been read leads to it and the version has no writer bit. -/
theorem safe_accept (move : Move) (stable : Stable P) (h : P s)
    (reading : ∀ t, P t → Reading n v φ t) (leads : ∀ d, φ d → LeadsTo n d move)
    (free : hasWriter v = false ∨ tested = false ∧ ∃ header target, move = .next header target) :
    SafeIn tested (validate n v (some move)) (fun _ => P) s := by
  refine Prog.safe_op (fun _ _ st => stable.rely st) (fun _ _ _ st => stable.rely st)
    (fun t pre met => ⟨⟨.elsewhere _ rfl rfl, ?_⟩, stable t _ _ pre⟩) h
  intro n' v' move' eq valid
  cases eq
  have free : hasWriter v = false := by
    rcases free with free | ⟨open', header, target, rfl⟩
    · exact free
    · exact met.2 n v header target rfl valid open'
  have unheld : Unheld t n v := met.1.unheld free valid
  exact ⟨(reading t pre).loaded, unheld, leads _ ((reading t pre).known unheld)⟩

/-- The program does nothing but load from one node. -/
inductive Loads (n : Addr) {α : Type} : Prog α → Prop
  | done (a : α) : Loads n (.done a)
  | load (f : Node → Nat) (next : Nat → Prog α) (rest : ∀ x, Loads n (next x)) :
    Loads n (.call (.load n f) next)
  | spent : Loads n .spent
  | failed : Loads n .failed

theorem Loads.bind {α β : Type} {p : Prog α} {f : α → Prog β} (h : Loads n p)
    (next : ∀ a, Loads n (f a)) : Loads n (p >>= f) := by
  induction h with
  | done a => exact next a
  | load f _ _ ih => exact .load f _ ih
  | spent => exact .spent
  | failed => exact .failed

/-- What loads alone have computed is what they compute on the contents of now, if the node has
not been held. -/
theorem safe_loads {α : Type} {p : Prog α} (loads : Loads n p) (h : Reading n v φ s) :
    SafeIn tested p (fun a t => Reading n v (fun d => φ d ∧ Yields n p d a) t) s := by
  induction loads generalizing φ s with
  | done a =>
    exact safe_pure (a := a) (Reading.stable n v _)
      (h.mono fun d known => ⟨known, fun m _ => rfl⟩)
  | load f next _ ih =>
    refine safe_bind (p := perform (.load n f)) (f := next) (safe_load f h) fun x t reading => ?_
    refine (ih x reading).mono fun a u result => result.mono fun d known => ?_
    obtain ⟨⟨known, value⟩, yields⟩ := known
    refine ⟨known, fun m same => ?_⟩
    change (next (f (m.node n))).run exec m = _
    rw [same, value]
    exact yields m same
  | spent => trivial
  | failed => trivial

theorem binaryLoop_loads (key : Key) (turns base len : Nat) :
    Loads n (binaryLoop n key turns base len) := by
  induction turns generalizing base len with
  | zero => exact .done _
  | succ turns ih =>
    unfold binaryLoop
    split
    · exact .load _ _ fun _ => ih _ _
    · exact .done _

theorem findRank_loads (num : Nat) (key : Key) : Loads n (findRank n num key) := by
  unfold findRank
  apply (binaryLoop_loads key num 0 num).bind
  intro rank
  apply Loads.bind (.load _ _ .done)
  intro k
  split
  · exact .done _
  · exact .done _

/-! ### The traversals are safe -/

/-- What a result says where there is one. -/
def Given {α : Type} (Q : α → Scene → Prop) : Option α → Scene → Prop
  | none, _ => True
  | some a, t => Q a t

theorem Given.stable {α : Type} {Q : α → Scene → Prop} (h : ∀ a, Stable (Q a)) (r : Option α) :
    Stable (Given Q r) := by
  cases r with
  | none => exact stable_const True
  | some a => exact h a

/-- A node and its version. -/
def At (c : Addr × Hocc64) (t : Scene) : Prop := Reading c.1 c.2 (fun _ => True) t

theorem safe_none {α : Type} {Q : α → Scene → Prop} (h : ∀ a, Stable (Q a)) :
    SafeIn tested (pure none) (Given Q) s :=
  safe_pure (Given.stable h none) trivial

-- The induction is on the fuel; each turn starts again with a version just loaded.
theorem horizontal_safe (key : Key) (fuel : Nat) {curr : Addr} {currV : Hocc64}
    (h : At (curr, currV) s) :
    SafeIn tested (horizontal tested key fuel curr currV) (Given At) s := by
  have stable (c : Addr × Hocc64) : Stable (At c) := Reading.stable c.1 c.2 _
  induction fuel generalizing curr currV s with
  | zero => trivial
  | succ fuel ih =>
    unfold horizontal
    refine safe_bind (safe_load _ h) fun header t readHeader => ?_
    split
    · refine safe_bind (safe_load _ readHeader) fun next t readNext => ?_
      split
      · exact safe_none stable
      -- the version of the next node is loaded before the current node is validated
      · refine safe_bind (safe_loadVersion (Reading.stable curr currV _) readNext)
          fun nextV t ⟨readNext, nextAt⟩ => ?_
        split
        · exact safe_none stable
        · next writer =>
          -- without the test it is left to what `Met` says of moves to a next node
          have free : hasWriter currV = false ∨ tested = false ∧
              ∃ h t, Move.next header next = .next h t := by
            cases tested <;> simp_all
          refine safe_bind (safe_accept _ ((Reading.stable curr currV _).and (stable (next, nextV)))
            ⟨readNext, nextAt⟩ (fun t both => both.1)
            (fun d known => ⟨known.1.2, known.2⟩) free) fun valid t both => ?_
          split
          · exact ih both.2
          · exact safe_none stable
    · exact safe_pure (Given.stable stable _) (readHeader.mono fun _ _ => trivial)

/-- The child of a node for a key, read under a version without the writer bit. -/
def ChildOf (key : Key) (curr : Addr) (currV : Hocc64) (child : Addr) (t : Scene) : Prop :=
  hasWriter currV = false ∧ Reading curr currV (fun d => LeadsTo curr d (.child key child)) t

theorem ChildOf.stable (key : Key) (curr : Addr) (currV : Hocc64) (child : Addr) :
    Stable (ChildOf key curr currV child) :=
  (stable_const _).and (Reading.stable curr currV _)

/-- The count, the rank and the slot, read one after another, lead to the child. -/
theorem Reading.child {key : Key} {num rank child : Nat}
    (h : Reading n v (fun d => ((φ d ∧ d.numElts = num) ∧ Yields n (findRank n num key) d rank) ∧
      d.slots rank = child) s) : Reading n v (fun d => LeadsTo n d (.child key child)) s := by
  apply h.mono
  rintro d ⟨⟨⟨-, rfl⟩, yields⟩, slot⟩
  exact ⟨rank, yields, slot⟩

theorem findChild_safe (key : Key) {curr : Addr} {currV : Hocc64} (h : At (curr, currV) s) :
    SafeIn tested (findChild key curr currV) (Given (ChildOf key curr currV)) s := by
  have stable := ChildOf.stable key curr currV
  unfold findChild
  refine safe_bind (safe_load _ h) fun num t readNum => ?_
  refine safe_bind (safe_loads (findRank_loads num key) readNum) fun rank t readRank => ?_
  refine safe_bind (safe_load _ readRank) fun child t readChild => ?_
  split
  · exact safe_none stable
  · split
    · exact safe_none stable
    · next writer =>
      refine safe_bind (safe_validate (stable child) ⟨by simpa using writer, readChild.child⟩)
        fun valid t childOf => ?_
      split
      · exact safe_pure (Given.stable stable _) childOf
      · exact safe_none stable

theorem moveDown_safe {key : Key} {curr child : Addr} {currV : Hocc64}
    (h : ChildOf key curr currV child s) :
    SafeIn tested (moveDown key curr currV child) (Given At) s := by
  have stable (c : Addr × Hocc64) : Stable (At c) := Reading.stable c.1 c.2 _
  unfold moveDown
  refine safe_bind (safe_loadVersion (ChildOf.stable key curr currV child) h)
    fun childV t ⟨childOf, childAt⟩ => ?_
  refine safe_bind (safe_accept _ ((ChildOf.stable key curr currV child).and (stable (child, childV)))
    ⟨childOf, childAt⟩ (fun t both => both.1.2) (fun d known => known) (.inl childOf.1))
    fun valid t both => ?_
  split
  · exact safe_pure (Given.stable stable _) both.2
  · exact safe_none stable

theorem descend_safe (fuel : Nat) (key : Key) (levels : Nat) {curr : Addr} {currV : Hocc64}
    (h : At (curr, currV) s) :
    SafeIn tested (descend tested fuel key levels curr currV) (Given At) s := by
  have stable (c : Addr × Hocc64) : Stable (At c) := Reading.stable c.1 c.2 _
  induction levels generalizing curr currV s with
  | zero => exact safe_pure (Given.stable stable _) h
  | succ levels ih =>
    unfold descend
    refine safe_bind (horizontal_safe key fuel h) fun r t moved => ?_
    rcases r with _ | ⟨curr, currV⟩
    · exact safe_none stable
    refine safe_bind (findChild_safe key moved) fun r t childOf => ?_
    rcases r with _ | child
    · exact safe_none stable
    refine safe_bind (moveDown_safe childOf) fun r t down => ?_
    rcases r with _ | ⟨curr, currV⟩
    · exact safe_none stable
    exact ih down

/-! ### The traversals one by one -/

/-- Nothing is asked of the result. -/
def Any {α : Type} (_ : α) (_ : Scene) : Prop := True

theorem safe_end {α : Type} (a : α) : SafeIn tested (pure a) Any s :=
  safe_pure (stable_const True) trivial

theorem getLevels_safe (fuel : Nat) (key : Key) (level : Nat) {curr : Addr} {currV : Hocc64}
    (h : At (curr, currV) s) : SafeIn true (getLevels fuel key level curr currV) Any s := by
  induction level generalizing curr currV s with
  | zero =>
    unfold getLevels
    refine safe_bind (horizontal_safe key fuel h) fun r t moved => ?_
    rcases r with _ | ⟨curr, currV⟩
    · exact safe_end _
    dsimp only
    split
    · exact safe_end _
    next writer =>
    have free : hasWriter currV = false := by simpa using writer
    refine safe_bind (safe_load _ moved) fun num t readNum => ?_
    refine safe_bind (safe_loads (findRank_loads num key) readNum) fun rank t readRank => ?_
    refine safe_bind (safe_load _ readRank) fun k t readKey => ?_
    split
    · -- the key is in the node that has been validated
      next found =>
      refine safe_bind (safe_load _ readKey) fun value t readValue => ?_
      refine safe_bind (safe_accept (.found key value) (Reading.stable curr currV _)
        readValue (fun _ reading => reading) ?_ (.inl free)) fun valid t _ => ?_
      · rintro d ⟨⟨⟨⟨-, rfl⟩, yields⟩, rfl⟩, slot⟩
        exact ⟨rank, yields, found, slot⟩
      · split <;> exact safe_end _
    · -- at the rank of the key stands another one
      next missing =>
      refine safe_bind (safe_accept (.absent key) (Reading.stable curr currV _)
        readKey (fun _ reading => reading) ?_ (.inl free)) fun valid t _ => ?_
      · rintro d ⟨⟨⟨-, rfl⟩, yields⟩, rfl⟩
        exact ⟨rank, yields, missing⟩
      · split <;> exact safe_end _
  | succ level ih =>
    unfold getLevels
    refine safe_bind (horizontal_safe key fuel h) fun r t moved => ?_
    rcases r with _ | ⟨curr, currV⟩
    · exact safe_end _
    dsimp only
    split
    · exact safe_end _
    next writer =>
    have free : hasWriter currV = false := by simpa using writer
    refine safe_bind (safe_load _ moved) fun num t readNum => ?_
    refine safe_bind (safe_loads (findRank_loads num key) readNum) fun rank t readRank => ?_
    refine safe_bind (safe_load _ readRank) fun child t readChild => ?_
    split
    · exact safe_end _
    refine safe_bind (safe_validate (ChildOf.stable key curr currV child) ⟨free, readChild.child⟩)
      fun valid t childOf => ?_
    split
    · refine safe_bind (moveDown_safe childOf) fun r t down => ?_
      rcases r with _ | ⟨curr, currV⟩
      · exact safe_end _
      exact ih down
    · exact safe_end _

theorem getTraversal_safe (fuel : Nat) (list : Bsl) (key : Key) :
    SafeIn true (getTraversal fuel list key) Any s := by
  unfold getTraversal
  refine safe_bind (safe_loadVersion (stable_const True) trivial) fun v t loaded => ?_
  exact getLevels_safe fuel key _ loaded.2

theorem insertTraversal_safe (fuel : Nat) (list : Bsl) (key : Key) :
    SafeIn true (insertTraversal fuel list key) Any s := by
  unfold insertTraversal
  refine safe_bind (safe_loadVersion (stable_const True) trivial) fun v t loaded => ?_
  refine safe_bind (descend_safe fuel key _ loaded.2) fun r t down => ?_
  rcases r with _ | ⟨curr, currV⟩
  · exact safe_end _
  exact (horizontal_safe key fuel down).mono fun _ _ _ => trivial

theorem foundDescent_safe (fuel : Nat) {child : Addr} {childV : Hocc64}
    (h : At (child, childV) s) : SafeIn true (foundDescent fuel child childV) Any s := by
  induction fuel generalizing child childV s with
  | zero => trivial
  | succ fuel ih =>
    unfold foundDescent
    refine safe_bind (safe_load _ h) fun level t readLevel => ?_
    split
    · refine safe_bind (safe_load _ readLevel) fun nextChild t readChild => ?_
      split
      · exact safe_end _
      split
      · exact safe_end _
      next writer =>
      -- the child is validated before the version of the next one is loaded, and once more after it
      have stable := Reading.stable child childV fun d =>
        (True ∧ d.level = level) ∧ d.slots 0 = nextChild
      refine safe_bind (safe_validate stable readChild) fun valid t readChild => ?_
      split
      · refine safe_bind (safe_loadVersion stable readChild) fun nextV t ⟨readChild, nextAt⟩ => ?_
        refine safe_bind (safe_accept _ (stable.and (Reading.stable nextChild nextV _))
          ⟨readChild, nextAt⟩ (fun t both => both.1) (fun d known => known.2)
          (.inl (by simpa using writer))) fun valid t both => ?_
        split
        · exact ih both.2
        · exact safe_end _
      · exact safe_end _
    · exact safe_end _

theorem foundTraversal_safe (fuel : Nat) (child : Addr) :
    SafeIn true (foundTraversal fuel child) Any s := by
  unfold foundTraversal
  refine safe_bind (safe_loadVersion (stable_const True) trivial) fun v t loaded => ?_
  exact foundDescent_safe fuel loaded.2

theorem deleteTraversal_safe (fuel : Nat) (list : Bsl) (key : Key) :
    SafeIn true (deleteTraversal fuel list key) Any s := by
  unfold deleteTraversal
  refine safe_bind (safe_loadVersion (stable_const True) trivial) fun v t loaded => ?_
  exact (descend_safe fuel key _ loaded.2).mono fun _ _ _ => trivial

/-! ### The read lock of a scan -/

/-- An access to the word of a node that is a step of a reader. -/
theorem safe_rmw {f : Hocc64 → Hocc64} (stable : Stable P) (h : P s)
    (steps : ∀ t : Scene, t.Steps (t.mem.setCtrl n (f (t.mem.ctrl n)))) :
    SafeIn tested (perform (.rmw n f)) (fun _ => P) s :=
  Prog.safe_op (fun _ _ st => stable.rely st) (fun _ _ _ st => stable.rely st)
    (fun t pre _ => ⟨⟨steps t, fun _ _ _ eq => nomatch eq⟩, stable t _ _ pre⟩) h

theorem Scene.steps_same (t : Scene) (n : Addr) : t.Steps (t.mem.setCtrl n (t.mem.ctrl n)) :=
  .elsewhere _ (by simp) rfl

theorem readLock_safe (fuel : Nat) (stable : Stable P) (h : P s) :
    SafeIn tested (readLock n fuel) (fun _ => P) s := by
  induction fuel generalizing s with
  | zero => trivial
  | succ fuel ih =>
    unfold readLock
    refine safe_bind (safe_rmw stable h fun t => t.steps_same n) fun w t pre => ?_
    split
    · exact ih pre
    · next writer =>
      refine safe_bind (Q := fun _ => P) ?_ fun swapped t pre => ?_
      · refine safe_bind (safe_rmw stable pre fun t => ?_) fun _ t pre => safe_pure stable pre
        -- the exchange takes place only on the word that had no writer
        split
        · next same =>
          rw [← same] at writer ⊢
          exact .enter n (by simpa using writer)
        · exact t.steps_same n
      · split
        · exact safe_pure stable pre
        · exact ih pre

theorem scanTraversal_safe (fuel : Nat) (list : Bsl) (start : Key) :
    SafeIn false (scanTraversal fuel list start) Any s := by
  unfold scanTraversal
  refine safe_bind (safe_loadVersion (stable_const True) trivial) fun v t loaded => ?_
  refine safe_bind (descend_safe fuel start _ loaded.2) fun r t down => ?_
  rcases r with _ | ⟨curr, currV⟩
  · exact safe_end _
  refine safe_bind (horizontal_safe start fuel down) fun r t moved => ?_
  rcases r with _ | ⟨curr, currV⟩
  · exact safe_end _
  refine safe_bind (findChild_safe start moved) fun r t childOf => ?_
  rcases r with _ | child
  · exact safe_end _
  -- the child is accepted under its read lock
  have stable := ChildOf.stable start curr currV child
  refine safe_bind (readLock_safe fuel stable childOf) fun _ t childOf => ?_
  refine safe_bind (safe_accept _ stable childOf (fun t childOf => childOf.2) (fun _ known => known)
    (.inl childOf.1)) fun valid t _ => ?_
  split
  · exact safe_end _
  · refine safe_bind (Q := Any) ?_ fun _ t _ => safe_end _
    refine safe_bind (safe_rmw (stable_const True) trivial fun t => .leave child) fun _ t _ => ?_
    exact safe_end _

/-! ### Runs -/

namespace Traversal

variable {fuel : Nat} {list : Bsl} {key : Key}

theorem prog_safe (t : Traversal) : SafeIn t.tested (t.prog fuel list key) Any s := by
  have ends {α : Type} {tested : Bool} {p : Prog α} (h : SafeIn tested p Any s) :
      SafeIn tested (do let _ ← p) Any s :=
    safe_bind h fun _ _ _ => safe_end _
  cases t with
  | get => exact ends (getTraversal_safe fuel list key)
  | insert => exact ends (insertTraversal_safe fuel list key)
  | found child => exact ends (foundTraversal_safe fuel child)
  | delete => exact ends (deleteTraversal_safe fuel list key)
  | scan => exact ends (scanTraversal_safe fuel list key)
  | scanBatch => exact ends (scanTraversal_safe fuel list key)

theorem event_validate (m : Mem) (n : Addr) (v : Hocc64) (move : Move) :
    event (.validate n v (some move)) (exec (.validate n v (some move)) m).1 =
      if hoccValidate (m.ctrl n) v then .accepted n v move else .other := rfl

theorem event_loaded {o : Op} {m : Mem} (h : event o (exec o m).1 = .loaded n v) :
    v = m.ctrl n ∧ (exec o m).2 = m := by
  cases o with
  | loadVersion n' =>
    cases h
    exact ⟨rfl, rfl⟩
  | validate n' v' move =>
    cases move with
    | none => cases h
    | some move =>
      rw [event_validate] at h
      split at h <;> cases h
  | _ => cases h

theorem event_accepted {o : Op} {m : Mem} {move : Move}
    (h : event o (exec o m).1 = .accepted n v move) :
    o = .validate n v (some move) ∧ hoccValidate (m.ctrl n) v = true := by
  cases o with
  | validate n' v' move' =>
    cases move' with
    | none => cases h
    | some move' =>
      rw [event_validate] at h
      split at h
      · next valid =>
        cases h
        exact ⟨rfl, valid⟩
      · cases h
  | _ => cases h

/-- A version that has been loaded was the word of the node. -/
theorem Reaches.recorded {t : Traversal} {m : Mem} {c : Prog Unit × Scene}
    (run : t.Reaches fuel list key m c) (m' : Mem) (mem : (m', .loaded n v) ∈ c.2.past) :
    v = m'.ctrl n := by
  induction run with
  | refl => cases mem
  | tail _ step ih =>
    cases step with
    | call o next s =>
      rcases List.mem_cons.mp mem with head | mem
      · obtain ⟨rfl, event⟩ := Prod.mk.inj head
        exact (event_loaded event.symm).1
      · exact ih mem
    | others p st =>
      obtain ⟨m'', -, rfl⟩ := st
      rcases List.mem_cons.mp mem with head | mem
      · cases head
      · exact ih mem

/-- In a run the lock words guarantee what they should, all moves are sound, and the rest of the
traversal is safe. -/
theorem Reaches.sound {t : Traversal} {m : Mem} {c : Prog Unit × Scene}
    (run : t.Reaches fuel list key m c) (onward : Onward c.2.mem c.2.past)
    (tests : t.tested = false → NextTested c.2) :
    Kept c.2 ∧ AllSound c.2 ∧ SafeIn t.tested c.1 Any c.2 := by
  induction run with
  | refl =>
    refine ⟨fun n v _ later m' earlier split => ?_, fun later m' n v move earlier split => ?_,
      t.prog_safe⟩
    · cases later <;> cases split
    · cases later <;> cases split
  | tail _ step ih =>
    cases step with
    | call o next s =>
      obtain ⟨kept, sound, safe⟩ := ih onward.2 fun untested m' n v header target mem =>
        tests untested m' n v header target (List.mem_cons_of_mem _ mem)
      -- a move to a next node that is accepted now is the last event
      have met : Met t.tested o s := by
        refine ⟨kept, fun n v header target eq valid untested => ?_⟩
        subst eq
        refine tests untested s.mem n v header target (List.mem_cons.mpr (.inl ?_))
        exact congrArg (Prod.mk s.mem) (if_pos valid).symm
      obtain ⟨⟨steps, accepts⟩, rest⟩ := safe.called (fun _ => .refl) met
      refine ⟨kept.after steps onward.1 fun n v loads => event_loaded loads, ?_, rest⟩
      intro later m' n v move earlier split
      cases later with
      | nil =>
        obtain ⟨head, rfl⟩ := List.cons.inj split
        obtain ⟨rfl, event⟩ := Prod.mk.inj head
        obtain ⟨rfl, valid⟩ := event_accepted event
        exact accepts n v move rfl valid
      | cons last later => exact sound later m' n v move earlier (List.cons.inj split).2
    -- a step of the other threads makes no move
    | others p st =>
      obtain ⟨m', steps, rfl⟩ := st
      obtain ⟨kept, sound, safe⟩ := ih onward.2 fun untested m' n v header target mem =>
        tests untested m' n v header target (List.mem_cons_of_mem _ mem)
      refine ⟨kept.after steps onward.1 fun n v loads => (nomatch loads), ?_, ?_⟩
      · intro later m'' n v move earlier split
        cases later with
        | nil => cases (Prod.mk.inj (List.cons.inj split).1).2
        | cons last later => exact sound later m'' n v move earlier (List.cons.inj split).2
      · exact safe.after (fun _ _ _ => .trans) (.single ⟨m', steps, rfl⟩)

end Traversal

/-- The moves that a traversal accepts are sound in exactly the interleavings in which a scan has
made no move to a next node from one that was locked when its version was loaded. -/
theorem hops_sound (t : Traversal) {fuel : Nat} {list : Bsl} {key : Key} {m : Mem}
    {p : Prog Unit} {s : Scene} (run : t.Reaches fuel list key m (p, s))
    (onward : Onward s.mem s.past) : AllSound s ↔ (t.tested = false → NextTested s) := by
  constructor
  · intro sound _ m' n v header target mem
    obtain ⟨later, earlier, split⟩ := List.append_of_mem mem
    obtain ⟨⟨m'', loaded⟩, unheld, -⟩ := sound later m' n v _ earlier split
    have before : (m'', .loaded n v) ∈ s.past := by
      rw [split]
      exact List.mem_append_right _ (List.mem_cons_of_mem _ loaded)
    obtain ⟨later', earlier', split'⟩ := List.append_of_mem loaded
    rw [run.recorded m'' before]
    exact (unheld later' m'' earlier' split' m'' (by simp)).1
  · exact fun tests => (run.sound onward tests).2.1

/-- Node 1 is the first node of the top level. An insertion has split it: the new node 3 is ready
and `next_header` of node 1 is its first key, but `next` is still the old neighbour, node 2. -/
def halfSplit (word : Hocc64) : Mem where
  ctrl := fun n => if n = 1 then word else hoccInit
  node := fun n =>
    if n = 1 then ⟨2, 40, 1, 4, fun _ => 0, fun _ => 11⟩
    else if n = 2 then ⟨null, keyMax, 1, 4, fun _ => 100, fun _ => 12⟩
    else if n = 3 then ⟨2, 100, 1, 4, fun _ => 40, fun _ => 13⟩
    else Node.zero
  fresh := 20
  itemNext := fun _ => null
  retired := []
  destroyed := []
  output := []

/-- A scan from key 60 goes on to the node at address 2. -/
def hopped (word : Hocc64) : Scene where
  mem := halfSplit word
  past := [(halfSplit word, .accepted 1 word (.next 40 2)), (halfSplit word, .loaded 2 hoccInit),
    (halfSplit word, .other), (halfSplit word, .other), (halfSplit word, .loaded 1 word)]

theorem reaches_hopped {word : Hocc64} (choice : word = hoccInit ∨ word = hoccWriterBit) :
    ∃ p, Traversal.scan.Reaches 2 (fun _ => 1) 60 (halfSplit word) (p, hopped word) := by
  rcases choice with rfl | rfl
  · exact ⟨_, Relation.ReflTransGen.refl.tail (.call _ _ _) |>.tail (.call _ _ _)
      |>.tail (.call _ _ _) |>.tail (.call _ _ _) |>.tail (.call _ _ _)⟩
  · exact ⟨_, Relation.ReflTransGen.refl.tail (.call _ _ _) |>.tail (.call _ _ _)
      |>.tail (.call _ _ _) |>.tail (.call _ _ _) |>.tail (.call _ _ _)⟩

/-- Nothing happens to the words in this run. -/
theorem onward_hopped (word : Hocc64) : Onward (hopped word).mem (hopped word).past :=
  ⟨fun _ _ => Nat.le_refl _, fun _ _ => Nat.le_refl _, fun _ _ => Nat.le_refl _,
    fun _ _ => Nat.le_refl _, fun _ _ => Nat.le_refl _, trivial⟩

/-- On an unlocked node the move of the scan is sound. -/
theorem hops_sound_unlocked : AllSound (hopped hoccInit) := by
  obtain ⟨p, run⟩ := reaches_hopped (.inl rfl)
  refine (hops_sound .scan run (onward_hopped hoccInit)).mpr fun _ m n v header target mem => ?_
  simp only [hopped, List.mem_cons, Prod.mk.injEq, Event.accepted.injEq, reduceCtorEq, and_false,
    or_false, List.not_mem_nil] at mem
  obtain ⟨-, -, rfl, -⟩ := mem
  decide

/-- A scan leaves a half-split node that was locked all the time, and misses the new node. -/
theorem hops_sound_locked : ¬ ∀ (t : Traversal) (fuel : Nat) (list : Bsl) (key : Key) (m : Mem)
    (p : Prog Unit) (s : Scene), t.Reaches fuel list key m (p, s) → Onward s.mem s.past →
      AllSound s := by
  intro claim
  obtain ⟨p, run⟩ := reaches_hopped (.inr rfl)
  have sound := claim .scan _ _ _ _ p _ run (onward_hopped hoccWriterBit) [] _ 1 hoccWriterBit
    (.next 40 2) _ rfl
  have free := (sound.unheld [_, _, _] _ [] rfl (halfSplit hoccWriterBit) (by simp)).1
  exact absurd free (by decide)

end DBx1000.Bskiplist
