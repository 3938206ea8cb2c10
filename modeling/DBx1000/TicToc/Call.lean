import DBx1000.Library.LockTrace
import DBx1000.TicToc.Knowledge

/-!
# One call of `validate_tictoc`

One thread in `validate_tictoc`, while others do with the rows what they like, but for the rows
that the call has locked, whose `_ts_word` they leave alone. So every `try_lock`, every comparison
and every `try_renew` can have any result. The load and the compare-and-swaps of `try_renew` are
steps of their own here, and a compare-and-swap of `try_lock` and `lock` can fail. The trace is
what the call itself does to the rows.

## Main result

`tictoc_call_clean`: a call releases every lock that it acquires, once, and no other; if it aborts
it changes no data and, but for a rebase, no write timestamp, and if it commits it writes exactly
the rows of its write set.
-/

namespace DBx1000.TicToc

open Transition LockTrace

variable {ρ V : Type*}

/-- A store to a row, other than that of a lock: `write_data`, and the compare-and-swap of
`try_renew`. -/
inductive RowWrite (V : Type*)
  | data (data : V) (wts : TsWord)
  | lease (word : TsWord) (rebase : Bool)
  deriving DecidableEq

/-- `renewing` are the local variables of `try_renew` in its loop. -/
structure Call (ρ V : Type*) where
  state : TxnState ρ V Unit
  renewing : Option Pending
  trace : List (RowEvent ρ (RowWrite V))

inductive CallLabel (ρ V : Type*)
  | next
  /-- The compare-and-swap of `try_lock` or `lock` fails. -/
  | casFails
  /-- What the other threads do to the rows. -/
  | others (word : ρ → TsWord) (data : ρ → V)

variable [DecidableEq ρ]

/-- What the next step outside `try_renew` does to a row. -/
def TxnState.event (s : TxnState ρ V Unit) : Option (RowEvent ρ (RowWrite V)) :=
  match s.pc () with
  | .lock _ _ (a :: _) =>
    if locked (s.word a.origRow) then none else some (.acquire a.origRow)
  | .backOff _ (a :: _) | .release _ a _ | .abort (a :: _) => some (.release a.origRow)
  | .write v (a :: _) => some (.act a.origRow (.data a.data v.commitWts))
  | _ => none

namespace Call

def goto (c : Call ρ V) (p : TxnPc ρ V) : Call ρ V :=
  { c with state := c.state.goto () p, renewing := none }

/-- The end of `try_renew`, or its next turn. -/
def renewal (c : Call ρ V) (v : Validation ρ V) (rest : List (Access ρ V)) : Renewal → Call ρ V
  | .returns b => c.goto (if b then .renew v rest else .abort v.writeSet)
  | .loops p => { c with renewing := some p }

/-- The compare-and-swap of `try_renew` stores its word. -/
def extend (c : Call ρ V) (v : Validation ρ V) (a : Access ρ V) (rest : List (Access ρ V))
    (p : Pending) : Call ρ V where
  state := (c.state.setWord a.origRow p.v2).goto () (.renew v rest)
  renewing := none
  trace := c.trace ++ [.act a.origRow (.lease p.v2 p.rebase)]

def next (preAbort noWait : Bool) (c : Call ρ V) : Option (Call ρ V) :=
  match c.state.pc () with
  | .renew v (a :: rest) =>
    if a.rts < v.commitWts then
      match c.renewing with
      | none => some (c.renewal v rest (renewLoad (c.state.word a.origRow) a.wts v.commitWts))
      | some p =>
        if c.state.word a.origRow = p.v then some (c.extend v a rest p)
        else some (c.renewal v rest (renewRetry p (c.state.word a.origRow)))
    else some (c.goto (.renew v rest))
  | _ => (validate preAbort noWait c.state ()).map fun s =>
    { c with state := s, trace := c.trace ++ c.state.event.toList }

def step (preAbort noWait : Bool) (c : Call ρ V) : CallLabel ρ V → Option (Call ρ V)
  | .next => c.next preAbort noWait
  | .casFails =>
    match c.state.pc () with
    | .lock v held (_ :: _) => if noWait then some (c.goto (.backOff v held)) else some c
    | _ => none
  | .others word data => some { c with state := { c.state with word := word, data := data } }

end Call

/-- A call for certain accesses, whatever is in the rows. -/
def callMachine (primaryKey : ρ → Nat) (preAbort noWait : Bool) (accesses : List (Access ρ V)) :
    Machine (Call ρ V) (CallLabel ρ V) where
  init c := c.trace = [] ∧ c.renewing = none ∧ c.state.log = [] ∧ c.state.pc () =
    startLocking preAbort ⟨readSet accesses, writeSet primaryKey accesses, commitTs accesses⟩
  step := Call.step preAbort noWait

omit [DecidableEq ρ] in
/-- The others leave the words of the rows alone that the call has locked. -/
def Polite (c : Call ρ V) : CallLabel ρ V → Prop
  | .others word _ => ∀ x ∈ (c.state.pc ()).held, word x = c.state.word x
  | _ => True

instance (c : Call ρ V) : ∀ l : CallLabel ρ V, Decidable (Polite c l)
  | .next => isTrue trivial
  | .casFails => isTrue trivial
  | .others word _ => inferInstanceAs (Decidable (∀ x ∈ (c.state.pc ()).held, word x = c.state.word x))

/-- The change of the rows by an event. -/
def Changes (s s' : TxnState ρ V Unit) : Option (RowEvent ρ (RowWrite V)) → Prop
  | none => s'.word = s.word ∧ s'.data = s.data
  | some (.acquire x) => locked (s.word x) = false ∧
    s'.word = Function.update s.word x (s.word x ||| lockBit) ∧ s'.data = s.data
  | some (.release x) => locked (s.word x) = true ∧
    s'.word = Function.update s.word x (s.word x &&& ~~~lockBit) ∧ s'.data = s.data
  | some (.act x (.data data wts)) => locked (s.word x) = true ∧
    s'.word = Function.update s.word x (writeWord (s.word x) wts) ∧
      s'.data = Function.update s.data x data
  | some (.act x (.lease word rebase)) => locked (s.word x) = false ∧ locked word = false ∧
    (rebase = false → wordWts word = wordWts (s.word x)) ∧
      s'.word = Function.update s.word x word ∧ s'.data = s.data

/-- The calls of `write_data`. -/
def written (trace : List (RowEvent ρ (RowWrite V))) : List (ρ × V × TsWord) :=
  (acts trace).filterMap fun
    | (x, .data data wts) => some (x, data, wts)
    | _ => none

omit [DecidableEq ρ] in
/-- The calls of `write_data` of a committed transaction for the accesses of its write set. -/
def stores (wts : TsWord) (accesses : List (Access ρ V)) : List (ρ × V × TsWord) :=
  accesses.map fun a => (a.origRow, a.data, wts)

/-! ### Words -/

omit [DecidableEq ρ] in
theorem msb_of_lt {w : TsWord} (small : w.toNat < 2 ^ 63) : w.msb = false := by
  rw [BitVec.msb_eq_false_iff_two_mul_lt]
  omega

theorem locked_writeWord_of_lt (v : TsWord) {wts : TsWord} (small : wts.toNat < 2 ^ 63) :
    locked (writeWord v wts) = locked v := by
  rw [locked_eq_msb, locked_eq_msb, writeWord, BitVec.msb_or, BitVec.msb_and, msb_of_lt small,
    show (~~~(rtsMask ||| wtsMask)).msb = true by decide]
  simp

theorem locked_leaseWord_of_lt {wts delta : TsWord} (small : wts.toNat < 2 ^ 63)
    (short : delta.toNat < 2 ^ 15) : locked (leaseWord wts delta) = false := by
  have shifted : (delta <<< wtsLen).toNat < 2 ^ 63 := by
    rw [BitVec.toNat_shiftLeft, Nat.shiftLeft_eq, show wtsLen = 48 from rfl]
    omega
  rw [locked_eq_msb, leaseWord, BitVec.msb_or, BitVec.msb_or, msb_of_lt small, msb_of_lt shifted]
  rfl

/-- A call in its loop: it stores a word without a lock and, but for a rebase, with the write
timestamp of the word that it replaces. -/
structure Extends (p : Pending) : Prop where
  free : locked p.v = false
  unlocked : locked p.v2 = false
  wts : p.rebase = false → wordWts p.v2 = p.wts ∧ wordWts p.v = p.wts

theorem extends_of_renewLoad {v wts rts : TsWord} {p : Pending} (le : wts ≤ rts)
    (small : rts.toNat < 2 ^ 49) (h : renewLoad v wts rts = .loops p) : p.v = v ∧ Extends p := by
  have le' : wts.toNat ≤ rts.toNat := le
  have hd := toNat_rebaseDelta (rts - wts)
  have hr := toNat_rebaseRest (rts - wts)
  have hs := toNat_sub_of_le le
  unfold renewLoad at h
  split at h
  · cases h
  split at h
  · cases h
  next free =>
  split at h
  · cases h
  next same =>
  -- the word is still the version that has been read
  have same : wordWts v = wts := (not_not.mp same).symm
  split at h
  · cases h
  split at h
  · cases h
    refine ⟨rfl, by simpa using free, locked_leaseWord_of_lt ?_ (by omega), nofun⟩
    rw [BitVec.toNat_add]
    omega
  · next short =>
    cases h
    -- a lease that fits the field needs no rebase
    have short : (rts - wts).toNat < 2 ^ 15 := by
      have := BitVec.not_le.mp short
      rwa [BitVec.lt_def, show (1#64 <<< rtsLen).toNat = 2 ^ 15 by decide] at this
    have low : wts.toNat < 2 ^ 48 := same ▸ wordWts_lt v
    exact ⟨rfl, by simpa using free, locked_leaseWord_of_lt (by omega) short,
      fun _ => ⟨wordWts_leaseWord low short, same⟩⟩

theorem extends_of_renewRetry {p p' : Pending} {preV : TsWord} (ext : Extends p)
    (h : renewRetry p preV = .loops p') : p'.v = preV ∧ Extends p' := by
  unfold renewRetry at h
  split at h
  · cases h
  next go =>
  split at h
  · cases h
  · cases h
    obtain ⟨no, go⟩ := not_or.mp go
    obtain ⟨free, same⟩ := not_or.mp go
    have no : p.rebase = false := by simpa using no
    exact ⟨rfl, by simpa using free, ext.unlocked,
      fun _ => ⟨(ext.wts no).1, (not_not.mp same).symm⟩⟩

/-! ### The timestamps of a validation -/

/-- What `Row_tictoc::access` loads. -/
def Loaded (a : Access ρ V) : Prop := ∃ w, a.wts = wordWts w ∧ a.rts = getRts w

omit [DecidableEq ρ] in
theorem Loaded.le {a : Access ρ V} (h : Loaded a) : a.wts ≤ a.rts := by
  obtain ⟨w, wts, rts⟩ := h
  rw [wts, rts, BitVec.le_def, toNat_getRts, readTs]
  exact Nat.le_add_right _ _

theorem getRts_lt (w : TsWord) : (getRts w + 1).toNat < 2 ^ 49 := by
  have low := wordWts_lt w
  have short := wordDelta_lt w
  have sum : (getRts w).toNat = (wordWts w).toNat + (wordDelta w).toNat := toNat_getRts w
  rw [BitVec.toNat_add, sum]
  change ((wordWts w).toNat + (wordDelta w).toNat + 1) % 2 ^ 64 < 2 ^ 49
  omega

omit [DecidableEq ρ] in
theorem countAccess_lt {ts : TsWord × TsWord} {a : Access ρ V} (loaded : Loaded a)
    (first : ts.1.toNat < 2 ^ 49) (second : ts.2.toNat < 2 ^ 49) :
    (countAccess ts a).1.toNat < 2 ^ 49 ∧ (countAccess ts a).2.toNat < 2 ^ 49 := by
  obtain ⟨w, wts, rts⟩ := loaded
  unfold countAccess
  split
  · have low := wordWts_lt w
    rw [wts]
    exact ⟨Nat.lt_trans low (by decide), second⟩
  · split
    · rw [rts]
      exact ⟨first, getRts_lt w⟩
    · exact ⟨first, second⟩

omit [DecidableEq ρ] in
theorem commitTs_lt {accesses : List (Access ρ V)} (loaded : ∀ a ∈ accesses, Loaded a) :
    (commitTs accesses).toNat < 2 ^ 49 := by
  have fold (accesses : List (Access ρ V)) (loaded : ∀ a ∈ accesses, Loaded a)
      (ts : TsWord × TsWord) (first : ts.1.toNat < 2 ^ 49) (second : ts.2.toNat < 2 ^ 49) :
      (accesses.foldl countAccess ts).1.toNat < 2 ^ 49 ∧
        (accesses.foldl countAccess ts).2.toNat < 2 ^ 49 := by
    induction accesses generalizing ts with
    | nil => exact ⟨first, second⟩
    | cons a accesses ih =>
      obtain ⟨head, tail⟩ := List.forall_mem_cons.mp loaded
      obtain ⟨first, second⟩ := countAccess_lt head first second
      exact ih tail _ first second
  obtain ⟨first, second⟩ := fold accesses loaded (0, 0) (by decide) (by decide)
  rw [commitTs]
  split
  · exact first
  · exact second

/-! ### The invariant of a call -/

section Invariant

omit [DecidableEq ρ] in
/-- The local variables of the call for certain sets. -/
structure Same (readSet writeSet : List (Access ρ V)) (v : Validation ρ V) : Prop where
  reads : v.readSet = readSet
  writes : v.writeSet = writeSet
  small : v.commitWts.toNat < 2 ^ 49

variable (readSet writeSet : List (Access ρ V))

/-- What holds at each point of the call; `all` are the calls of `write_data` so far. -/
def Point (s : TxnState ρ V Unit) (all : List (ρ × V × TsWord)) : TxnPc ρ V → Prop
  | .idle => s.log = [] ∧ all = [] ∨ s.log ≠ [] ∧ ∃ wts, all = stores wts writeSet
  | .running _ => False
  | .preWrite v _ | .preRead v _ | .backOff v _ | .getRts v _ | .raise v _ _ | .commit v =>
    (s.log = [] ∧ all = []) ∧ Same readSet writeSet v
  | .lock v held rest =>
    (s.log = [] ∧ all = []) ∧ Same readSet writeSet v ∧ writeSet = held ++ rest
  | .check v held a rest =>
    (s.log = [] ∧ all = []) ∧ Same readSet writeSet v ∧ writeSet = held ++ a :: rest
  | .renew v rest =>
    (s.log = [] ∧ all = []) ∧ Same readSet writeSet v ∧ ∀ a ∈ rest, a ∈ readSet
  | .write v rest => s.log ≠ [] ∧ v.commitWts.toNat < 2 ^ 49 ∧
    ∃ done, writeSet = done ++ rest ∧ all = stores v.commitWts done
  | .release v a rest => s.log ≠ [] ∧ v.commitWts.toNat < 2 ^ 49 ∧
    ∃ done, writeSet = done ++ a :: rest ∧ all = stores v.commitWts (done ++ [a])
  | .abort _ => s.log = [] ∧ all = []

structure CallInv (c : Call ρ V) : Prop where
  holds : Holds c.trace (c.state.pc ()).held
  locked : ∀ x ∈ (c.state.pc ()).held, locked (c.state.word x) = true
  renewing : ∀ p, c.renewing = some p → Extends p
  point : Point readSet writeSet c.state (written c.trace) (c.state.pc ())

omit readSet writeSet in
/-- A step changes the rows as it says in the trace. -/
def Did (c c' : Call ρ V) : Prop :=
  ∃ e, c'.trace = c.trace ++ Option.toList e ∧ Changes c.state c'.state e

variable {readSet writeSet} {c c' : Call ρ V} {p q : TxnPc ρ V}

namespace CallInv

/-- A step that does nothing to the rows. -/
theorem move (inv : CallInv readSet writeSet c) (pc : c.state.pc () = p)
    (trace : c'.trace = c.trace) (word : c'.state.word = c.state.word)
    (data : c'.state.data = c.state.data)
    (pc' : c'.state.pc = Function.update c.state.pc () q) (held : q.held = p.held)
    (renewing : ∀ r, c'.renewing = some r → Extends r)
    (point : Point readSet writeSet c'.state (written c.trace) q) :
    Did c c' ∧ CallInv readSet writeSet c' := by
  have pc' : c'.state.pc () = q := by rw [pc', Function.update_self]
  refine ⟨⟨none, ?_, word, data⟩, ?_, ?_, renewing, ?_⟩
  · rw [trace, Option.toList_none, List.append_nil]
  · have holds := inv.holds
    rw [pc', trace, held]
    rwa [pc] at holds
  · have locked := inv.locked
    rw [pc', word, held]
    rwa [pc] at locked
  · rw [pc', trace]
    exact point

/-- A step that gives up the lock of the first row that is held. -/
theorem release (inv : CallInv readSet writeSet c) (pc : c.state.pc () = p) {x : ρ}
    {rows : List ρ} (trace : c'.trace = c.trace ++ [.release x]) (held : p.held = x :: rows)
    (word : c'.state.word = Function.update c.state.word x (c.state.word x &&& ~~~lockBit))
    (data : c'.state.data = c.state.data)
    (pc' : c'.state.pc = Function.update c.state.pc () q) (held' : q.held = rows)
    (renewing : ∀ r, c'.renewing = some r → Extends r)
    (point : Point readSet writeSet c'.state (written c.trace) q) :
    Did c c' ∧ CallInv readSet writeSet c' := by
  have locked := inv.locked
  have holds := inv.holds
  have pc' : c'.state.pc () = q := by rw [pc', Function.update_self]
  rw [pc, held] at locked holds
  have new : x ∉ rows := (List.nodup_cons.mp holds.nodup).1
  refine ⟨⟨some (.release x), trace, locked x List.mem_cons_self, word, data⟩, ?_, ?_, renewing, ?_⟩
  · rw [pc', held', trace]
    exact holds.release
  · rw [pc', held', word]
    intro y hy
    have ne : y ≠ x := fun same => new (same ▸ hy)
    rw [Function.update_of_ne ne]
    exact locked y (List.mem_cons_of_mem _ hy)
  · rw [pc', trace]
    simpa [written] using point

/-- A step that locks a row. -/
theorem acquire (inv : CallInv readSet writeSet c) (pc : c.state.pc () = p) {x : ρ}
    (trace : c'.trace = c.trace ++ [.acquire x]) (free : TicToc.locked (c.state.word x) = false)
    (new : x ∉ p.held) (word : c'.state.word = Function.update c.state.word x (c.state.word x ||| lockBit))
    (data : c'.state.data = c.state.data)
    (pc' : c'.state.pc = Function.update c.state.pc () q) (held' : q.held = p.held ++ [x])
    (renewing : ∀ r, c'.renewing = some r → Extends r)
    (point : Point readSet writeSet c'.state (written c.trace) q) :
    Did c c' ∧ CallInv readSet writeSet c' := by
  have locked := inv.locked
  have holds := inv.holds
  have pc' : c'.state.pc () = q := by rw [pc', Function.update_self]
  rw [pc] at locked holds
  refine ⟨⟨some (.acquire x), trace, free, word, data⟩, ?_, ?_, renewing, ?_⟩
  · rw [pc', held', trace]
    exact holds.acquire new
  · rw [pc', held', word]
    intro y hy
    by_cases at_ : y = x
    · rw [at_, Function.update_self]
      exact locked_lock _
    · rw [Function.update_of_ne at_]
      rcases List.mem_append.mp hy with hy | hy
      · exact locked y hy
      · exact absurd (List.mem_singleton.mp hy) at_
  · rw [pc', trace]
    simpa [written] using point

/-- `write_data` of a row that is held. -/
theorem write (inv : CallInv readSet writeSet c) (pc : c.state.pc () = p) {x : ρ} {value : V}
    {wts : TsWord} (trace : c'.trace = c.trace ++ [.act x (.data value wts)]) (mem : x ∈ p.held)
    (small : wts.toNat < 2 ^ 63)
    (word : c'.state.word = Function.update c.state.word x (writeWord (c.state.word x) wts))
    (data : c'.state.data = Function.update c.state.data x value)
    (pc' : c'.state.pc = Function.update c.state.pc () q) (held : q.held = p.held)
    (renewing : ∀ r, c'.renewing = some r → Extends r)
    (point : Point readSet writeSet c'.state (written c.trace ++ [(x, value, wts)]) q) :
    Did c c' ∧ CallInv readSet writeSet c' := by
  have locked := inv.locked
  have holds := inv.holds
  have pc' : c'.state.pc () = q := by rw [pc', Function.update_self]
  rw [pc] at locked holds
  refine ⟨⟨some (.act x (.data value wts)), trace, locked x mem, word, data⟩, ?_, ?_, renewing, ?_⟩
  · rw [pc', held, trace]
    exact holds.act _
  · rw [pc', held, word]
    intro y hy
    by_cases at_ : y = x
    · -- a timestamp below 2^63 does not reach the lock bit
      rw [at_, Function.update_self, locked_writeWord_of_lt _ small]
      exact locked x mem
    · rw [Function.update_of_ne at_]
      exact locked y hy
  · rw [pc', trace]
    simpa [written] using point

/-- `try_lock` or `lock`, and `get_wts` after it. -/
theorem validate_lock {preAbort noWait : Bool} {s' : TxnState ρ V Unit}
    (inv : CallInv readSet writeSet c) (distinct : (writeSet.map (·.origRow)).Nodup)
    {v : Validation ρ V} {held : List (Access ρ V)} {a : Access ρ V} {rest : List (Access ρ V)}
    (pc : c.state.pc () = .lock v held (a :: rest))
    (h : TicToc.validate preAbort noWait c.state () = some s') :
    Did c { c with state := s', trace := c.trace ++ c.state.event.toList } ∧
      CallInv readSet writeSet
        { c with state := s', trace := c.trace ++ c.state.event.toList } := by
  have point := inv.point
  have renewing := inv.renewing
  rw [pc] at point
  obtain ⟨quiet, same, split_⟩ := point
  simp only [TicToc.validate, pc] at h
  split at h
  · next taken =>
    split at h
    · cases h
      exact inv.move pc (by simp [TxnState.event, pc, taken]) rfl rfl rfl rfl renewing
        ⟨quiet, same⟩
    · cases h
  · next free =>
    cases h
    have unlocked : TicToc.locked (c.state.word a.origRow) = false := by simpa using free
    -- the rows of the write set are distinct, so the call does not hold this one yet
    have new : a.origRow ∉ held.map (·.origRow) := by
      rw [split_, List.map_append, List.nodup_append] at distinct
      exact fun mem => distinct.2.2 _ mem _ List.mem_cons_self rfl
    exact inv.acquire pc (by simp [TxnState.event, pc, unlocked]) unlocked new rfl rfl rfl rfl
      renewing ⟨quiet, same, split_⟩

/-- A step outside `try_renew`. -/
theorem validate {preAbort noWait : Bool} {s' : TxnState ρ V Unit}
    (inv : CallInv readSet writeSet c) (distinct : (writeSet.map (·.origRow)).Nodup)
    (outside : ∀ v a rest, c.state.pc () ≠ .renew v (a :: rest))
    (h : TicToc.validate preAbort noWait c.state () = some s') :
    Did c { c with state := s', trace := c.trace ++ c.state.event.toList } ∧
      CallInv readSet writeSet
        { c with state := s', trace := c.trace ++ c.state.event.toList } := by
  have point := inv.point
  have renewing := inv.renewing
  cases pc : c.state.pc () with
  | idle | running _ => simp [TicToc.validate, pc] at h
  -- a write that has changed ends the call
  | preWrite v rest =>
    rw [pc] at point
    cases rest with
    | nil =>
      simp only [TicToc.validate, pc] at h
      cases h
      exact inv.move pc (by simp [TxnState.event, pc]) rfl rfl rfl rfl renewing point
    | cons a rest =>
      simp only [TicToc.validate, pc] at h
      split at h
      · cases h
        exact inv.move pc (by simp [TxnState.event, pc]) rfl rfl rfl rfl renewing point.1
      · cases h
        exact inv.move pc (by simp [TxnState.event, pc]) rfl rfl rfl rfl renewing point
  | preRead v rest =>
    rw [pc] at point
    cases rest with
    | nil =>
      simp only [TicToc.validate, pc] at h
      cases h
      obtain ⟨quiet, same⟩ := point
      exact inv.move pc (by simp [TxnState.event, pc]) rfl rfl rfl rfl renewing
        ⟨quiet, same, by rw [same.writes]; rfl⟩
    | cons a rest =>
      simp only [TicToc.validate, pc] at h
      split at h
      · cases h
        exact inv.move pc (by simp [TxnState.event, pc]) rfl rfl rfl rfl renewing point.1
      · cases h
        exact inv.move pc (by simp [TxnState.event, pc]) rfl rfl rfl rfl renewing point
  | lock v held rest =>
    cases rest with
    | nil =>
      rw [pc] at point
      simp only [TicToc.validate, pc] at h
      cases h
      -- every row of the write set is locked now
      obtain ⟨quiet, same, split⟩ := point
      rw [List.append_nil] at split
      exact inv.move pc (by simp [TxnState.event, pc]) rfl rfl rfl
        (congrArg (List.map Access.origRow) (same.writes.trans split)) renewing ⟨quiet, same⟩
    | cons a rest => exact inv.validate_lock distinct pc h
  | check v held a rest =>
    rw [pc] at point
    obtain ⟨quiet, same, split_⟩ := point
    simp only [TicToc.validate, pc] at h
    split at h
    · cases h
      exact inv.move pc (by simp [TxnState.event, pc]) rfl rfl rfl (by simp [TxnPc.held]) renewing
        quiet
    · cases h
      exact inv.move pc (by simp [TxnState.event, pc]) rfl rfl rfl (by simp [TxnPc.held]) renewing
        ⟨quiet, same, by rw [split_, List.append_assoc, List.singleton_append]⟩
  | backOff v rest =>
    rw [pc] at point
    cases rest with
    | nil =>
      simp only [TicToc.validate, pc] at h
      cases h
      -- it locks again, with the comparisons of `_pre_abort` or without
      obtain ⟨quiet, same⟩ := point
      cases preAbort with
      | false =>
        exact inv.move pc (by simp [TxnState.event, pc]) rfl rfl rfl rfl renewing
          ⟨quiet, same, by rw [same.writes]; rfl⟩
      | true =>
        exact inv.move pc (by simp [TxnState.event, pc]) rfl rfl rfl rfl renewing ⟨quiet, same⟩
    | cons a rest =>
      simp only [TicToc.validate, pc] at h
      cases h
      exact inv.release pc (by simp [TxnState.event, pc]) rfl rfl rfl rfl rfl renewing point
  | getRts v rest =>
    rw [pc] at point
    cases rest with
    | nil =>
      simp only [TicToc.validate, pc] at h
      cases h
      obtain ⟨quiet, same⟩ := point
      exact inv.move pc (by simp [TxnState.event, pc]) rfl rfl rfl rfl renewing
        ⟨quiet, same, fun a ha => same.reads ▸ ha⟩
    | cons a rest =>
      simp only [TicToc.validate, pc] at h
      split at h
      · cases h
        exact inv.move pc (by simp [TxnState.event, pc]) rfl rfl rfl rfl renewing point
      · cases h
        exact inv.move pc (by simp [TxnState.event, pc]) rfl rfl rfl rfl renewing point
  -- the commit timestamp is above the read timestamp of the row
  | raise v a rest =>
    rw [pc] at point
    simp only [TicToc.validate, pc] at h
    cases h
    obtain ⟨quiet, same⟩ := point
    exact inv.move pc (by simp [TxnState.event, pc]) rfl rfl rfl rfl renewing
      ⟨quiet, same.reads, same.writes, getRts_lt _⟩
  | renew v rest =>
    rw [pc] at point
    cases rest with
    | nil =>
      simp only [TicToc.validate, pc] at h
      cases h
      exact inv.move pc (by simp [TxnState.event, pc]) rfl rfl rfl rfl renewing
        ⟨point.1, point.2.1⟩
    | cons a rest => exact absurd pc (outside _ _ _)
  | commit v =>
    rw [pc] at point
    simp only [TicToc.validate, pc] at h
    cases h
    -- nothing has been stored before the commit
    obtain ⟨⟨-, none⟩, same⟩ := point
    exact inv.move pc (by simp [TxnState.event, pc]) rfl rfl rfl rfl renewing
      ⟨by simp, same.small, [], same.writes.symm, none⟩
  -- the rows are written and unlocked one after the other
  | write v rest =>
    rw [pc] at point
    obtain ⟨committed, small, done, split, all⟩ := point
    cases rest with
    | nil =>
      simp only [TicToc.validate, pc] at h
      cases h
      rw [List.append_nil] at split
      exact inv.move pc (by simp [TxnState.event, pc]) rfl rfl rfl rfl renewing
        (.inr ⟨committed, _, split ▸ all⟩)
    | cons a rest =>
      simp only [TicToc.validate, pc] at h
      cases h
      refine inv.write pc (by simp [TxnState.event, pc]) List.mem_cons_self (by omega) rfl rfl rfl
        rfl renewing ⟨committed, small, done, split, ?_⟩
      rw [all, stores, stores, List.map_append]
      rfl
  | release v a rest =>
    rw [pc] at point
    simp only [TicToc.validate, pc] at h
    cases h
    obtain ⟨committed, small, done, split, all⟩ := point
    exact inv.release pc (by simp [TxnState.event, pc]) rfl rfl rfl rfl rfl renewing
      ⟨committed, small, _, by rw [split]; simp, all⟩
  | abort rest =>
    rw [pc] at point
    cases rest with
    | nil =>
      simp only [TicToc.validate, pc] at h
      cases h
      exact inv.move pc (by simp [TxnState.event, pc]) rfl rfl rfl rfl renewing (.inl point)
    | cons a rest =>
      simp only [TicToc.validate, pc] at h
      cases h
      exact inv.release pc (by simp [TxnState.event, pc]) rfl rfl rfl rfl rfl renewing point

/-- The compare-and-swap of `try_renew` succeeds. -/
theorem extend {v : Validation ρ V} {a : Access ρ V} {rest : List (Access ρ V)} {r : Pending}
    (inv : CallInv readSet writeSet c) (pc : c.state.pc () = .renew v (a :: rest))
    (ext : Extends r) (found : c.state.word a.origRow = r.v) :
    Did c (c.extend v a rest r) ∧ CallInv readSet writeSet (c.extend v a rest r) := by
  have locked := inv.locked
  have holds := inv.holds
  have point := inv.point
  rw [pc] at locked holds point
  have pc' : (c.extend v a rest r).state.pc () = .renew v rest := by
    simp [Call.extend, TxnState.goto]
  -- a locked word is never extended
  have free : TicToc.locked (c.state.word a.origRow) = false := by rw [found]; exact ext.free
  refine ⟨⟨some (.act a.origRow (.lease r.v2 r.rebase)), rfl, free, ext.unlocked, ?_, rfl, rfl⟩,
    ?_, ?_, nofun, ?_⟩
  · intro no
    rw [found, (ext.wts no).1, (ext.wts no).2]
  · rw [pc']
    exact holds.act _
  · rw [pc']
    intro y hy
    -- the row is free, so the call does not hold it
    have ne : y ≠ a.origRow := fun same => by
      have := locked y hy
      rw [same, free] at this
      cases this
    change TicToc.locked (Function.update c.state.word a.origRow r.v2 y) = true
    rw [Function.update_of_ne ne]
    exact locked y hy
  · rw [pc']
    have same : written (c.extend v a rest r).trace = written c.trace := by
      simp [written, Call.extend]
    rw [same]
    exact ⟨point.1, point.2.1, fun b hb => point.2.2 b (List.mem_cons_of_mem _ hb)⟩

/-- `try_renew` returns or goes on. -/
theorem renewal {v : Validation ρ V} {a : Access ρ V} {rest : List (Access ρ V)} {r : Renewal}
    (inv : CallInv readSet writeSet c) (pc : c.state.pc () = .renew v (a :: rest))
    (ext : ∀ p, r = .loops p → Extends p) :
    Did c (c.renewal v rest r) ∧ CallInv readSet writeSet (c.renewal v rest r) := by
  have point := inv.point
  rw [pc] at point
  cases r with
  | loops p =>
    refine inv.move pc rfl rfl rfl ?_ rfl ?_ ?_
    · rw [← pc, Function.update_eq_self]
      rfl
    · rintro _ ⟨⟩
      exact ext p rfl
    · exact point
  | returns b =>
    cases b with
    | false =>
      refine inv.move pc rfl rfl rfl rfl rfl nofun point.1
    | true =>
      exact inv.move pc rfl rfl rfl rfl rfl nofun
        ⟨point.1, point.2.1, fun b hb => point.2.2 b (List.mem_cons_of_mem _ hb)⟩

/-- A step of the call. -/
theorem next {preAbort noWait : Bool} (inv : CallInv readSet writeSet c)
    (distinct : (writeSet.map (·.origRow)).Nodup) (loaded : ∀ a ∈ readSet, Loaded a)
    (h : c.next preAbort noWait = some c') : Did c c' ∧ CallInv readSet writeSet c' := by
  have point := inv.point
  unfold Call.next at h
  split at h
  · next v a rest pc =>
    rw [pc] at point
    obtain ⟨quiet, same, reads⟩ := point
    split at h
    · -- the commit timestamp is beyond the lease that was read
      next longer =>
      split at h
      · cases h
        refine inv.renewal pc fun p is => ?_
        have le : a.wts ≤ v.commitWts :=
          BitVec.le_trans (loaded a (reads a List.mem_cons_self)).le (BitVec.le_of_lt longer)
        exact (extends_of_renewLoad le same.small is).2
      · next p renewing =>
        have ext := inv.renewing p renewing
        split at h
        · -- the compare and swap finds the word that was loaded
          next found =>
          cases h
          exact inv.extend pc ext found
        · cases h
          exact inv.renewal pc fun p' is => (extends_of_renewRetry ext is).2
    · cases h
      exact inv.move pc rfl rfl rfl rfl rfl nofun
        ⟨quiet, same, fun b hb => reads b (List.mem_cons_of_mem _ hb)⟩
  · next outside =>
    obtain ⟨s', valid, rfl⟩ := Option.map_eq_some_iff.mp h
    exact inv.validate distinct outside valid

/-- A compare-and-swap of `try_lock` or `lock` fails. -/
theorem casFails {preAbort noWait : Bool} (inv : CallInv readSet writeSet c)
    (h : c.step preAbort noWait .casFails = some c') : CallInv readSet writeSet c' := by
  have point := inv.point
  simp only [Call.step] at h
  split at h
  · next v held a rest pc =>
    rw [pc] at point
    split at h
    · cases h
      have back : Did c (c.goto (.backOff v held)) ∧
          CallInv readSet writeSet (c.goto (.backOff v held)) :=
        inv.move pc rfl rfl rfl rfl rfl nofun ⟨point.1, point.2.1⟩
      exact back.2
    · cases h
      exact inv
  · cases h

/-- What the others do. -/
theorem others (inv : CallInv readSet writeSet c) {word : ρ → TsWord} {data : ρ → V}
    (polite : ∀ x ∈ (c.state.pc ()).held, word x = c.state.word x) :
    CallInv readSet writeSet { c with state := { c.state with word := word, data := data } } := by
  refine ⟨inv.holds, fun x hx => ?_, inv.renewing, ?_⟩
  · change TicToc.locked (word x) = true
    rw [polite x hx]
    exact inv.locked x hx
  · have point := inv.point
    change Point readSet writeSet { c.state with word := word, data := data } _ (c.state.pc ())
    cases pc : c.state.pc () <;> rw [pc] at point <;> exact point

/-- A call that starts has done nothing yet. -/
theorem init {preAbort : Bool} {v : Validation ρ V} (same : Same readSet writeSet v)
    (trace : c.trace = []) (renewing : c.renewing = none) (log : c.state.log = [])
    (pc : c.state.pc () = startLocking preAbort v) : CallInv readSet writeSet c := by
  have quiet : c.state.log = [] ∧ written c.trace = [] := ⟨log, by rw [trace]; rfl⟩
  cases preAbort with
  | false =>
    rw [show startLocking false v = .lock v [] v.writeSet from rfl] at pc
    refine ⟨?_, ?_, ?_, ?_⟩
    · rw [trace, pc]
      exact .nil
    · rw [pc]
      nofun
    · rw [renewing]
      nofun
    · rw [pc]
      exact ⟨quiet, same, same.writes.symm⟩
  | true =>
    rw [show startLocking true v = .preWrite v v.writeSet from rfl] at pc
    refine ⟨?_, ?_, ?_, ?_⟩
    · rw [trace, pc]
      exact .nil
    · rw [pc]
      nofun
    · rw [renewing]
      nofun
    · rw [pc]
      exact ⟨quiet, same⟩

end CallInv

end Invariant

/-! ### Calls -/

/-- What a call leaves behind: its steps change the rows as the trace says, and when it returns it
holds no lock; it has written no row if it aborts, and if it commits, those of its write set. -/
structure Clean (primaryKey : ρ → Nat) (preAbort noWait : Bool) (accesses : List (Access ρ V))
    (c : Call ρ V) : Prop where
  changes : ∀ c', c.step preAbort noWait .next = some c' → Did c c'
  unlocked : c.state.pc () = .idle → locksAfter [] c.trace = some []
  aborted : c.state.pc () = .idle → c.state.log = [] → written c.trace = []
  committed : c.state.pc () = .idle → c.state.log ≠ [] →
    ∃ wts, written c.trace = stores wts (writeSet primaryKey accesses)

/-- **A call of `validate_tictoc` is clean.** -/
theorem tictoc_call_clean {primaryKey : ρ → Nat} {preAbort noWait : Bool}
    {accesses : List (Access ρ V)} (distinct : (accesses.map (·.origRow)).Nodup)
    (loaded : ∀ a ∈ accesses, Loaded a) {c : Call ρ V}
    (reached : (callMachine primaryKey preAbort noWait accesses).Reachable Polite c) :
    Clean primaryKey preAbort noWait accesses c := by
  -- the write set has each row once, as the accesses do
  have rows : ((writeSet primaryKey accesses).map (·.origRow)).Nodup := by
    have all := ((perm_sets primaryKey accesses).map (·.origRow)).nodup_iff.mpr distinct
    rw [List.map_append] at all
    exact (List.nodup_append.mp all).2.1
  have reads : ∀ a ∈ readSet accesses, Loaded a := fun a ha => loaded a (List.mem_of_mem_filter ha)
  have inv : CallInv (readSet accesses) (writeSet primaryKey accesses) c := by
    refine reached.invariant
      (I := CallInv (readSet accesses) (writeSet primaryKey accesses)) ?_ fun c l c' inv polite h => ?_
    · rintro c ⟨trace, renewing, log, pc⟩
      exact CallInv.init ⟨rfl, rfl, commitTs_lt loaded⟩ trace renewing log pc
    · cases l with
      | next => exact (inv.next rows reads h).2
      | casFails => exact inv.casFails (show c.step preAbort noWait .casFails = some c' from h)
      | others word data =>
        cases h
        exact inv.others polite
  have point := inv.point
  have holds := inv.holds
  refine ⟨fun c' h => ?_, fun pc => ?_, fun pc none => ?_, fun pc some => ?_⟩
  · exact (inv.next rows reads h).1
  · rw [pc] at holds
    exact holds.closed
  · rw [pc] at point
    rcases point with ⟨-, all⟩ | ⟨some, -⟩
    · exact all
    · exact absurd none some
  · rw [pc] at point
    rcases point with ⟨none, -⟩ | ⟨-, all⟩
    · exact absurd none some
    · exact all

end DBx1000.TicToc
