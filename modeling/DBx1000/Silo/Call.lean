import DBx1000.Library.LockTrace
import DBx1000.Silo.Knowledge

/-!
# One call of `validate_silo`

One thread in `validate_silo`, while others do with the rows what they like, but for the rows
that the call has locked, whose `_tid_word` they leave alone. So every `try_lock`, every
comparison of a tid and every `validate` can have any result. The trace is what the call itself
does to the rows.

## Main result

`silo_call_clean`: a call releases every lock that it acquires, once, and no other; if it aborts
it changes no data and no tid, and if it commits it writes exactly the rows of its write set.
-/

namespace DBx1000.Silo

open Transition LockTrace

variable {ρ V : Type*}

/-- A store to a row, other than that of a lock. -/
inductive RowWrite (V : Type*)
  | data (data : V)
  | tid (tid : Nat)
  deriving DecidableEq

structure Call (ρ V : Type*) where
  state : SiloState ρ V Unit
  trace : List (RowEvent ρ (RowWrite V))

inductive CallLabel (ρ V : Type*)
  | next
  /-- What the other threads do to the rows. -/
  | others (word : ρ → TidWord) (data : ρ → V)

variable [DecidableEq ρ]

/-- What the next step does to a row. -/
def SiloState.event (s : SiloState ρ V Unit) : Option (RowEvent ρ (RowWrite V)) :=
  match s.pc () with
  | .cas _ _ a _ w => if s.word a.origRow = w then some (.acquire a.origRow) else none
  | .clear _ a _ _ | .releaseStore _ a _ _ => some (.release a.origRow)
  | .write _ (a :: _) => some (.act a.origRow (.data a.data))
  | .store tid a _ => some (.act a.origRow (.tid tid))
  | _ => none

def Call.step (preAbort noWait : Bool) (c : Call ρ V) : CallLabel ρ V → Option (Call ρ V)
  | .next => (siloNext preAbort noWait c.state ()).map fun s =>
    ⟨s, c.trace ++ c.state.event.toList⟩
  | .others word data => some { c with state := { c.state with word := word, data := data } }

/-- A call for certain accesses, whatever is in the rows. -/
def callMachine (primaryKey : ρ → Nat) (preAbort noWait : Bool) (accesses : List (Access ρ V)) :
    Machine (Call ρ V) (CallLabel ρ V) where
  init c := c.trace = [] ∧ c.state.log = [] ∧ c.state.pc () =
    startLocking preAbort ⟨readSet accesses, writeSet primaryKey accesses⟩
  step := Call.step preAbort noWait

omit [DecidableEq ρ] in
/-- The others leave the words of the rows alone that the call has locked. -/
def Polite (c : Call ρ V) : CallLabel ρ V → Prop
  | .next => True
  | .others word _ => ∀ x ∈ (c.state.pc ()).held, word x = c.state.word x

instance (c : Call ρ V) : ∀ l : CallLabel ρ V, Decidable (Polite c l)
  | .next => isTrue trivial
  | .others word _ => inferInstanceAs (Decidable (∀ x ∈ (c.state.pc ()).held, word x = c.state.word x))

/-- The change of the rows by an event. -/
def Changes (s s' : SiloState ρ V Unit) : Option (RowEvent ρ (RowWrite V)) → Prop
  | none => s'.word = s.word ∧ s'.data = s.data
  | some (.acquire x) => (s.word x).lock = false ∧
    s'.word = Function.update s.word x ⟨(s.word x).tid, true⟩ ∧ s'.data = s.data
  | some (.release x) => (s.word x).lock = true ∧
    s'.word = Function.update s.word x ⟨(s.word x).tid, false⟩ ∧ s'.data = s.data
  | some (.act x (.data data)) => s'.word = s.word ∧ s'.data = Function.update s.data x data
  | some (.act x (.tid tid)) => (s.word x).lock = true ∧
    s'.word = Function.update s.word x ⟨tid, true⟩ ∧ s'.data = s.data

omit [DecidableEq ρ] in
/-- The stores of a committed transaction for the accesses of its write set. -/
def stores (tid : Nat) (accesses : List (Access ρ V)) : List (ρ × RowWrite V) :=
  accesses.flatMap fun a => [(a.origRow, .data a.data), (a.origRow, .tid tid)]

/-! ### The invariant of a call -/

section Invariant

omit [DecidableEq ρ] in
/-- What holds at each point of the call for the sets `v`; `acts` are the stores so far. -/
def Point (v : Validation ρ V) (s : SiloState ρ V Unit) (acts : List (ρ × RowWrite V)) :
    SiloPc ρ V → Prop
  | .idle => s.log = [] ∧ acts = [] ∨ s.log ≠ [] ∧ ∃ tid, acts = stores tid v.writeSet
  | .preWrite w _ | .preRead w _ => (s.log = [] ∧ acts = []) ∧ w = v
  | .lock w held rest => (s.log = [] ∧ acts = []) ∧ w = v ∧ v.writeSet = held ++ rest
  | .cas w held a rest word =>
    (s.log = [] ∧ acts = []) ∧ w = v ∧ v.writeSet = held ++ a :: rest ∧ word.lock = false
  | .check w held a rest => (s.log = [] ∧ acts = []) ∧ w = v ∧ v.writeSet = held ++ a :: rest
  | .unlock again _ => (s.log = [] ∧ acts = []) ∧ ∀ w, again = some w → w = v
  | .clear again a _ word => (s.log = [] ∧ acts = []) ∧ (∀ w, again = some w → w = v) ∧
    word = ⟨(s.word a.origRow).tid, false⟩
  | .readValidate w _ _ _ | .writeValidate w _ _ _ => (s.log = [] ∧ acts = []) ∧ w = v
  | .write tid rest =>
    s.log ≠ [] ∧ ∃ done, v.writeSet = done ++ rest ∧ acts = stores tid done
  | .verify tid a rest | .store tid a rest => s.log ≠ [] ∧ ∃ done,
    v.writeSet = done ++ a :: rest ∧ acts = stores tid done ++ [(a.origRow, .data a.data)]
  | .release tid a rest => s.log ≠ [] ∧ ∃ done,
    v.writeSet = done ++ a :: rest ∧ acts = stores tid (done ++ [a])
  | .releaseStore tid a rest word => s.log ≠ [] ∧ (∃ done,
    v.writeSet = done ++ a :: rest ∧ acts = stores tid (done ++ [a])) ∧
      word = ⟨(s.word a.origRow).tid, false⟩
  | _ => False

structure CallInv (v : Validation ρ V) (c : Call ρ V) : Prop where
  holds : Holds c.trace (c.state.pc ()).held
  locked : ∀ x ∈ (c.state.pc ()).held, (c.state.word x).lock = true
  point : Point v c.state (acts c.trace) (c.state.pc ())

variable {v : Validation ρ V} {c : Call ρ V} {s' : SiloState ρ V Unit} {p q : SiloPc ρ V}

namespace CallInv

/-- A step that does nothing to the rows. -/
theorem move (inv : CallInv v c) (pc : c.state.pc () = p) (none : c.state.event = none)
    (word : s'.word = c.state.word) (data : s'.data = c.state.data) (pc' : s'.pc = Function.update c.state.pc () q)
    (held : q.held = p.held) (point : Point v s' (acts c.trace) q) :
    Changes c.state s' c.state.event ∧
      CallInv v ⟨s', c.trace ++ c.state.event.toList⟩ := by
  have pc' : s'.pc () = q := by rw [pc', Function.update_self]
  rw [none]
  refine ⟨⟨word, data⟩, ?_, ?_, ?_⟩
  · have holds := inv.holds
    simp only [Option.toList_none, List.append_nil, pc', held]
    rwa [pc] at holds
  · have locked := inv.locked
    simp only [pc', held, word]
    rwa [pc] at locked
  · simp only [Option.toList_none, List.append_nil, pc']
    exact point

/-- A step that gives up the lock of the first row that is held. -/
theorem release (inv : CallInv v c) (pc : c.state.pc () = p) {x : ρ} {rows : List ρ}
    (event : c.state.event = some (.release x)) (held : p.held = x :: rows)
    (word : s'.word = Function.update c.state.word x ⟨(c.state.word x).tid, false⟩)
    (data : s'.data = c.state.data) (pc' : s'.pc = Function.update c.state.pc () q) (held' : q.held = rows)
    (point : Point v s' (acts c.trace) q) :
    Changes c.state s' c.state.event ∧
      CallInv v ⟨s', c.trace ++ c.state.event.toList⟩ := by
  have locked := inv.locked
  have holds := inv.holds
  have pc' : s'.pc () = q := by rw [pc', Function.update_self]
  rw [pc, held] at locked holds
  have new : x ∉ rows := (List.nodup_cons.mp holds.nodup).1
  rw [event]
  refine ⟨⟨locked x List.mem_cons_self, word, data⟩, ?_, ?_, ?_⟩
  · simp only [pc', held']
    exact holds.release
  · simp only [pc', held', word]
    intro y hy
    have ne : y ≠ x := fun same => new (same ▸ hy)
    rw [Function.update_of_ne ne]
    exact locked y (List.mem_cons_of_mem _ hy)
  · simpa [pc'] using point

/-- A step that stores to a row that is held. -/
theorem act (inv : CallInv v c) (pc : c.state.pc () = p) {x : ρ} {write : RowWrite V}
    (event : c.state.event = some (.act x write)) (changes : Changes c.state s' (some (.act x write)))
    (tid : ∀ y, (s'.word y).lock = (c.state.word y).lock)
    (pc' : s'.pc = Function.update c.state.pc () q) (held : q.held = p.held)
    (point : Point v s' (acts c.trace ++ [(x, write)]) q) :
    Changes c.state s' c.state.event ∧
      CallInv v ⟨s', c.trace ++ c.state.event.toList⟩ := by
  have locked := inv.locked
  have holds := inv.holds
  have pc' : s'.pc () = q := by rw [pc', Function.update_self]
  rw [pc, ← held] at locked holds
  rw [event]
  refine ⟨changes, ?_, ?_, ?_⟩
  · simp only [pc']
    exact holds.act write
  · simp only [pc', tid]
    exact locked
  · simpa [pc'] using point

omit [DecidableEq ρ] in
theorem stores_concat (tid : Nat) (done : List (Access ρ V)) (a : Access ρ V) :
    stores tid (done ++ [a]) = stores tid done ++ [(a.origRow, .data a.data)] ++
      [(a.origRow, .tid tid)] := by
  simp [stores]

/-- The comparison of `_pre_abort` with an access: the validation fails, or goes on. -/
theorem next_compare (inv : CallInv v c) (pc : c.state.pc () = p) (free : p.held = [])
    (none : c.state.event = none) {a : Access ρ V} (quiet : c.state.log = [] ∧ acts c.trace = [])
    (rest : q.held = []) (point : Point v (c.state.goto () q) (acts c.trace) q)
    (h : (if (c.state.word a.origRow).tid ≠ a.tid then some (c.state.goto () (.unlock .none []))
      else some (c.state.goto () q)) = some s') :
    Changes c.state s' c.state.event ∧
      CallInv v ⟨s', c.trace ++ c.state.event.toList⟩ := by
  split at h
  · cases h
    exact inv.move pc none rfl rfl rfl free.symm ⟨quiet, fun _ e => nomatch e⟩
  · cases h
    exact inv.move pc none rfl rfl rfl (rest.trans free.symm) point

/-- The compare-and-swap of `try_lock` and `lock`: it locks the row, or the call tries again. -/
theorem next_cas {preAbort noWait : Bool} (inv : CallInv v c)
    (distinct : (v.writeSet.map (·.origRow)).Nodup) {w : Validation ρ V}
    {held : List (Access ρ V)} {a : Access ρ V} {rest : List (Access ρ V)} {word : TidWord}
    (pc : c.state.pc () = .cas w held a rest word)
    (h : siloNext preAbort noWait c.state () = some s') :
    Changes c.state s' c.state.event ∧
      CallInv v ⟨s', c.trace ++ c.state.event.toList⟩ := by
  have point := inv.point
  rw [pc] at point
  obtain ⟨quiet, rfl, split_, free⟩ := point
  simp only [siloNext, pc] at h
  split at h
  · next same =>
    have holds := inv.holds
    have locked := inv.locked
    have event : c.state.event = some (.acquire a.origRow) := by
      rw [SiloState.event, pc]
      exact if_pos same
    have held' : SiloPc.held (.check w held a rest) = held.map (·.origRow) ++ [a.origRow] :=
      List.map_append
    cases h
    rw [event]
    rw [pc] at holds locked
    -- the rows of the write set are distinct, so the call does not hold this one yet
    have new : a.origRow ∉ held.map (·.origRow) := by
      rw [split_, List.map_append, List.nodup_append] at distinct
      exact fun mem => distinct.2.2 _ mem _ List.mem_cons_self rfl
    refine ⟨⟨by rw [same]; exact free, by rw [same]; rfl, rfl⟩, ?_, ?_, ?_⟩
    · exact held' ▸ holds.acquire new
    · intro x hx
      change (Function.update c.state.word a.origRow _ x).lock = true
      change x ∈ SiloPc.held (.check w held a rest) at hx
      rw [held'] at hx
      by_cases at_ : x = a.origRow
      · rw [at_, Function.update_self]
      · rw [Function.update_of_ne at_]
        rcases List.mem_append.mp hx with hx | hx
        · exact locked x hx
        · exact absurd (List.mem_singleton.mp hx) at_
    · simpa using ⟨quiet, rfl, split_⟩
  · -- the word has changed: with no waiting the call gives up, else it loads again
    next other =>
    have event : c.state.event = none := by
      rw [SiloState.event, pc]
      exact if_neg other
    split at h
    · cases h
      exact inv.move pc event rfl rfl rfl rfl ⟨quiet, fun _ e => (Option.some.inj e).symm⟩
    · cases h
      exact inv.move pc event rfl rfl rfl rfl ⟨quiet, rfl, split_⟩

/-- The store of the tid. -/
theorem next_store {preAbort noWait : Bool} (inv : CallInv v c) {tid : Nat} {a : Access ρ V}
    {rest : List (Access ρ V)} (pc : c.state.pc () = .store tid a rest)
    (h : siloNext preAbort noWait c.state () = some s') :
    Changes c.state s' c.state.event ∧
      CallInv v ⟨s', c.trace ++ c.state.event.toList⟩ := by
  have point := inv.point
  rw [pc] at point
  obtain ⟨committed, done, split, all⟩ := point
  have locked := inv.locked a.origRow (by rw [pc]; exact List.mem_cons_self)
  have event : c.state.event = some (.act a.origRow (.tid tid)) := by
    rw [SiloState.event, pc]
  simp only [siloNext, pc] at h
  cases h
  refine inv.act pc event ⟨locked, rfl, rfl⟩ (fun y => ?_) rfl rfl
    ⟨committed, done, split, by rw [all, stores_concat]⟩
  change (Function.update c.state.word a.origRow _ y).lock = _
  by_cases at_ : y = a.origRow
  · rw [at_, Function.update_self, locked]
  · rw [Function.update_of_ne at_]

theorem next {preAbort noWait : Bool} (inv : CallInv v c)
    (distinct : (v.writeSet.map (·.origRow)).Nodup)
    (h : siloNext preAbort noWait c.state () = some s') :
    Changes c.state s' c.state.event ∧
      CallInv v ⟨s', c.trace ++ c.state.event.toList⟩ := by
  have point := inv.point
  cases pc : c.state.pc () with
  | idle | running _ => simp [siloNext, pc] at h
  | load _ _ _ | copy _ _ _ _ | reload _ _ _ _ _ =>
    -- a validation does not access rows
    rw [pc] at point
    exact absurd point id
  -- a write that has changed ends the call
  | preWrite w rest =>
    rw [pc] at point
    have none : c.state.event = none := by rw [SiloState.event, pc]
    simp only [siloNext, pc] at h
    cases rest with
    | nil =>
      cases h
      exact inv.move pc none rfl rfl rfl rfl point
    | cons a rest => exact inv.next_compare (q := .preWrite w rest) pc rfl none point.1 rfl point h
  | preRead w rest =>
    rw [pc] at point
    have none : c.state.event = none := by rw [SiloState.event, pc]
    simp only [siloNext, pc] at h
    cases rest with
    | nil =>
      cases h
      obtain ⟨quiet, rfl⟩ := point
      exact inv.move pc none rfl rfl rfl rfl ⟨quiet, rfl, rfl⟩
    | cons a rest => exact inv.next_compare (q := .preRead w rest) pc rfl none point.1 rfl point h
  | lock w held rest =>
    rw [pc] at point
    obtain ⟨quiet, rfl, split_⟩ := point
    have none : c.state.event = none := by rw [SiloState.event, pc]
    simp only [siloNext, pc] at h
    cases rest with
    | nil =>
      cases h
      -- every row of the write set is locked now
      rw [List.append_nil] at split_
      exact inv.move pc none rfl rfl rfl (congrArg (List.map Access.origRow) split_) ⟨quiet, rfl⟩
    | cons a rest =>
      dsimp only at h
      split at h
      · split at h
        · cases h
          exact inv.move pc none rfl rfl rfl rfl ⟨quiet, fun _ e => (Option.some.inj e).symm⟩
        · cases h
      · next free =>
        cases h
        exact inv.move pc none rfl rfl rfl rfl ⟨quiet, rfl, split_, by simpa using free⟩
  | cas w held a rest word => exact inv.next_cas distinct pc h
  -- a row whose tid has changed makes the call unlock what it holds
  | check w held a rest =>
    rw [pc] at point
    obtain ⟨quiet, rfl, split_⟩ := point
    have none : c.state.event = none := by rw [SiloState.event, pc]
    simp only [siloNext, pc] at h
    split at h
    · cases h
      exact inv.move pc none rfl rfl rfl rfl ⟨quiet, fun _ e => nomatch e⟩
    · cases h
      exact inv.move pc none rfl rfl rfl rfl
        ⟨quiet, rfl, by rw [split_, List.append_assoc, List.singleton_append]⟩
  | unlock again rest =>
    rw [pc] at point
    have none : c.state.event = none := by rw [SiloState.event, pc]
    cases rest with
    | nil =>
      cases again with
      | none =>
        simp only [siloNext, pc] at h
        cases h
        exact inv.move pc none rfl rfl rfl rfl (.inl point.1)
      | some w =>
        simp only [siloNext, pc] at h
        cases h
        -- it locks again, with the comparisons of `_pre_abort` or without
        obtain ⟨quiet, same⟩ := point
        obtain rfl := same _ rfl
        cases preAbort with
        | false => exact inv.move pc none rfl rfl rfl rfl ⟨quiet, rfl, rfl⟩
        | true => exact inv.move pc none rfl rfl rfl rfl ⟨quiet, rfl⟩
    | cons a rest =>
      cases again <;> simp only [siloNext, pc] at h <;> cases h <;>
        exact inv.move pc none rfl rfl rfl rfl ⟨point.1, point.2, rfl⟩
  | clear again a rest word =>
    rw [pc] at point
    obtain ⟨quiet, same, rfl⟩ := point
    simp only [siloNext, pc] at h
    cases h
    exact inv.release pc (by rw [SiloState.event, pc]) rfl rfl rfl rfl rfl ⟨quiet, same⟩
  -- a read that has changed or is locked by another call fails
  | readValidate w stamp rest maxTid =>
    rw [pc] at point
    have none : c.state.event = none := by rw [SiloState.event, pc]
    simp only [siloNext, pc] at h
    cases rest with
    | nil =>
      cases h
      exact inv.move pc none rfl rfl rfl rfl point
    | cons a rest =>
      obtain ⟨quiet, rfl⟩ := point
      dsimp only at h
      split at h
      · cases h
        exact inv.move pc none rfl rfl rfl rfl ⟨quiet, rfl⟩
      · cases h
        exact inv.move pc none rfl rfl rfl rfl ⟨quiet, fun _ e => nomatch e⟩
  | writeValidate w stamp rest maxTid =>
    rw [pc] at point
    have none : c.state.event = none := by rw [SiloState.event, pc]
    simp only [siloNext, pc] at h
    cases rest with
    | nil =>
      cases h
      -- nothing has been stored before the commit
      obtain ⟨⟨-, quiet⟩, rfl⟩ := point
      exact inv.move pc none rfl rfl rfl rfl ⟨by simp [SiloState.commit], [], rfl, quiet⟩
    | cons a rest =>
      obtain ⟨quiet, rfl⟩ := point
      dsimp only at h
      split at h
      · cases h
        exact inv.move pc none rfl rfl rfl rfl ⟨quiet, rfl⟩
      · cases h
        exact inv.move pc none rfl rfl rfl rfl ⟨quiet, fun _ e => nomatch e⟩
  -- the rows are copied and unlocked one after the other
  | write tid rest =>
    rw [pc] at point
    obtain ⟨committed, done, split, all⟩ := point
    simp only [siloNext, pc] at h
    cases rest with
    | nil =>
      cases h
      rw [List.append_nil] at split
      exact inv.move pc (by rw [SiloState.event, pc]) rfl rfl rfl rfl
        (.inr ⟨committed, _, split ▸ all⟩)
    | cons a rest =>
      have event : c.state.event = some (.act a.origRow (.data a.data)) := by
        rw [SiloState.event, pc]
      cases h
      exact inv.act pc event ⟨rfl, rfl⟩ (fun _ => rfl) rfl rfl
        ⟨committed, done, split, by rw [all]⟩
  | verify tid a rest =>
    rw [pc] at point
    simp only [siloNext, pc] at h
    cases h
    exact inv.move pc (by rw [SiloState.event, pc]) rfl rfl rfl rfl point
  | store tid a rest => exact inv.next_store pc h
  | release tid a rest =>
    rw [pc] at point
    obtain ⟨committed, done⟩ := point
    simp only [siloNext, pc] at h
    cases h
    exact inv.move pc (by rw [SiloState.event, pc]) rfl rfl rfl rfl ⟨committed, done, rfl⟩
  | releaseStore tid a rest word =>
    rw [pc] at point
    obtain ⟨committed, ⟨done, split, all⟩, rfl⟩ := point
    simp only [siloNext, pc] at h
    cases h
    exact inv.release pc (by rw [SiloState.event, pc]) rfl rfl rfl rfl rfl
      ⟨committed, done ++ [a], by rw [split]; simp, all⟩

/-- What the others do. -/
theorem others (inv : CallInv v c) {word : ρ → TidWord} {data : ρ → V}
    (polite : ∀ x ∈ (c.state.pc ()).held, word x = c.state.word x) :
    CallInv v ⟨{ c.state with word := word, data := data }, c.trace⟩ := by
  refine ⟨inv.holds, fun x hx => ?_, ?_⟩
  · change (word x).lock = true
    rw [polite x hx]
    exact inv.locked x hx
  · have point := inv.point
    change Point v { c.state with word := word, data := data } (acts c.trace) (c.state.pc ())
    cases pc : c.state.pc () with
    | clear again a rest w =>
      rw [pc] at point polite
      obtain ⟨quiet, same, is⟩ := point
      refine ⟨quiet, same, ?_⟩
      change w = ⟨(word a.origRow).tid, false⟩
      rw [polite a.origRow List.mem_cons_self]
      exact is
    | releaseStore tid a rest w =>
      rw [pc] at point polite
      obtain ⟨committed, done, is⟩ := point
      refine ⟨committed, done, ?_⟩
      change w = ⟨(word a.origRow).tid, false⟩
      rw [polite a.origRow List.mem_cons_self]
      exact is
    | _ =>
      rw [pc] at point
      exact point

end CallInv

end Invariant

/-! ### Calls -/

/-- What a call leaves behind: its steps change the rows as the trace says, and when it returns it
holds no lock; it has stored nothing if it aborts, and if it commits, the data and the tid of
every access of its write set. -/
structure Clean (primaryKey : ρ → Nat) (preAbort noWait : Bool) (accesses : List (Access ρ V))
    (c : Call ρ V) : Prop where
  changes : ∀ c', c.step preAbort noWait .next = some c' →
    Changes c.state c'.state c.state.event ∧ c'.trace = c.trace ++ c.state.event.toList
  unlocked : c.state.pc () = .idle → locksAfter [] c.trace = some []
  aborted : c.state.pc () = .idle → c.state.log = [] → acts c.trace = []
  committed : c.state.pc () = .idle → c.state.log ≠ [] →
    ∃ tid, acts c.trace = stores tid (writeSet primaryKey accesses)

/-- A call that starts has done nothing yet. -/
theorem callInv_init {v : Validation ρ V} {c : Call ρ V} {preAbort : Bool}
    (trace : c.trace = []) (log : c.state.log = [])
    (pc : c.state.pc () = startLocking preAbort v) : CallInv v c := by
  cases preAbort with
  | false =>
    rw [show startLocking false v = .lock v [] v.writeSet from rfl] at pc
    refine ⟨?_, ?_, ?_⟩
    · rw [trace, pc]
      exact .nil
    · rw [pc]
      nofun
    · rw [trace, pc]
      exact ⟨⟨log, rfl⟩, rfl, rfl⟩
  | true =>
    rw [show startLocking true v = .preWrite v v.writeSet from rfl] at pc
    refine ⟨?_, ?_, ?_⟩
    · rw [trace, pc]
      exact .nil
    · rw [pc]
      nofun
    · rw [trace, pc]
      exact ⟨⟨log, rfl⟩, rfl⟩

/-- **A call of `validate_silo` is clean.** -/
theorem silo_call_clean {primaryKey : ρ → Nat} {preAbort noWait : Bool}
    {accesses : List (Access ρ V)} (distinct : (accesses.map (·.origRow)).Nodup) {c : Call ρ V}
    (reached : (callMachine primaryKey preAbort noWait accesses).Reachable Polite c) :
    Clean primaryKey preAbort noWait accesses c := by
  -- the write set has each row once, as the accesses do
  have rows : ((writeSet primaryKey accesses).map (·.origRow)).Nodup := by
    have all := ((perm_sets primaryKey accesses).map (·.origRow)).nodup_iff.mpr distinct
    rw [List.map_append] at all
    exact (List.nodup_append.mp all).2.1
  have inv : CallInv ⟨readSet accesses, writeSet primaryKey accesses⟩ c := by
    refine reached.invariant (I := CallInv ⟨readSet accesses, writeSet primaryKey accesses⟩)
      ?_ fun c l c' inv polite h => ?_
    · rintro c ⟨trace, log, pc⟩
      exact callInv_init trace log pc
    · cases l with
      | next =>
        obtain ⟨s', next, rfl⟩ := Option.map_eq_some_iff.mp h
        exact (inv.next rows next).2
      | others word data =>
        cases h
        exact inv.others polite
  have point := inv.point
  have holds := inv.holds
  refine ⟨fun c' h => ?_, fun pc => ?_, fun pc none => ?_, fun pc some => ?_⟩
  · obtain ⟨s', next, rfl⟩ := Option.map_eq_some_iff.mp h
    exact ⟨(inv.next rows next).1, rfl⟩
  · rw [pc] at holds
    exact holds.closed
  · rw [pc] at point
    rcases point with ⟨-, all⟩ | ⟨some, -⟩
    · exact all
    · exact absurd none some
  · rw [pc] at point
    rcases point with ⟨none, -⟩ | ⟨-, all⟩
    · exact absurd none some
    · exact all

end DBx1000.Silo
