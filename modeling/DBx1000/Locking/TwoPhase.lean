import DBx1000.Locking.Transaction

/-!
# Strict two-phase locking

Three invariants of every run. `Served`: the locks serve the requests of the transactions,
and whoever has access to a row owns its lock in the mode of the access. `Clean`: a row has
its committed data unless a transaction may have written it, and then the before-image that
this transaction keeps is the committed data. `Ordered`: of two conflicting operations, the
transaction of the first one has finished before the second one happens.

Together they give the guarantees of strict two-phase locking under all three modes.

## Main result

`strict_two_phase`: rows that nobody holds exclusively have committed data, an abort would restore
it, finished transactions hold and await nothing, and conflicting operations of committed
transactions are in the order of the commits.

## Proof strategy

`NextEffect` lists what the next step of a thread can do, and each invariant is shown for its
cases. The calls on the locks are followed on the queues that the locks implement, so nothing
here looks at a list of entries.
-/

namespace DBx1000.Locking

open Transition RowLock

variable {ρ τ V : Type*}

/-! ### What the next step of a transaction does -/

section Effect

variable [DecidableEq ρ] [DecidableEq τ]

inductive NextEffect (s : SystemState ρ τ V) (t : τ) : SystemState ρ τ V → Prop
  | clear (row : ρ) (type : AccessType) (here : (s.txn t).phase = .queued row type) :
      NextEffect s t (s.setTxn t { s.txn t with lockAbort := false, phase := .waiting row type })
  | spin : NextEffect s t s
  | leave (row : ρ) (type : AccessType) (here : (s.txn t).phase = .waiting row type)
      (flag : s.lockReady t = true ∨ (s.txn t).lockAbort = true) :
      NextEffect s t (s.goto t (.woken row type))
  | grant (row : ρ) (type : AccessType) (here : (s.txn t).phase = .woken row type)
      (flag : s.lockReady t = true ∨ (s.txn t).lockAbort = false) :
      NextEffect s t (s.goto t (.granted row type))
  | giveUp (row : ρ) (type : AccessType) (here : (s.txn t).phase = .woken row type) :
      NextEffect s t (s.goto t (.givingUp row type))
  | refuse (row : ρ) (type : AccessType) (here : (s.txn t).phase = .givingUp row type) :
      NextEffect s t ((s.lockRelease t row).goto t .refused)
  | access (row : ρ) (type : AccessType) (here : (s.txn t).phase = .granted row type) :
      NextEffect s t (s.setTxn t { s.txn t with
        phase := .running
        accesses := (s.txn t).accesses ++
          [⟨row, type, if type = .WR then some (s.data row) else none⟩] })
  | done (rc : RC) (restored : Bool) (here : (s.txn t).phase = .cleanup rc restored)
      (empty : (s.txn t).accesses = []) : NextEffect s t (s.goto t .idle)
  | restore (front : List (Access ρ V)) (a : Access ρ V) (v : V)
      (here : (s.txn t).phase = .cleanup .Abort false) (split : (s.txn t).accesses = front ++ [a])
      (write : a.type = .WR) (image : a.origData = some v) :
      NextEffect s t
        ({ s with data := Function.update s.data a.origRow v }.goto t (.cleanup .Abort true))
  | release (rc : RC) (restored : Bool) (front : List (Access ρ V)) (a : Access ρ V)
      (here : (s.txn t).phase = .cleanup rc restored) (split : (s.txn t).accesses = front ++ [a])
      (clean : restored = true ∨ rc ≠ .Abort ∨ a.type ≠ .WR ∨ a.origData = none) :
      NextEffect s t ((s.lockRelease t a.origRow).setTxn t
        { s.txn t with phase := .cleanup rc false, accesses := front })

theorem cleanup_effect {s : SystemState ρ τ V} {t : τ} {rc : RC} {restored : Bool}
    {front : List (Access ρ V)} {a : Access ρ V} (here : (s.txn t).phase = .cleanup rc restored)
    (split : (s.txn t).accesses = front ++ [a]) :
    NextEffect s t (s.cleanup t rc restored a) := by
  have rest : (s.txn t).accesses.dropLast = front := by rw [split, List.dropLast_concat]
  -- `return_row` puts a before-image back first, and only for an aborted write that has one
  by_cases dirty : restored = false ∧ rc = .Abort ∧ a.type = .WR ∧ a.origData ≠ none
  · obtain ⟨rfl, rfl, write, image⟩ := dirty
    obtain ⟨v, image⟩ := Option.ne_none_iff_exists'.mp image
    have result : s.cleanup t .Abort false a =
        { s with data := Function.update s.data a.origRow v }.goto t (.cleanup .Abort true) := by
      simp only [SystemState.cleanup, write, image]
    rw [result]
    exact .restore front a v here split write image
  · have result : s.cleanup t rc restored a = (s.lockRelease t a.origRow).setTxn t
        { s.txn t with phase := .cleanup rc false, accesses := front } := by
      unfold SystemState.cleanup
      rw [rest]
      split
      · next v write image => exact absurd ⟨rfl, rfl, write, by simp [image]⟩ dirty
      · rfl
    rw [result]
    refine .release rc restored front a here split ?_
    -- otherwise the access would have been restored in this step
    by_contra none
    push Not at none
    obtain ⟨first, abort, write, image⟩ := none
    exact dirty ⟨by simpa using first, abort, write, image⟩

theorem next_effect {s s' : SystemState ρ τ V} {t : τ} (next : s.next t = some s') :
    NextEffect s t s' := by
  unfold SystemState.next at next
  dsimp only at next
  cases phase : (s.txn t).phase with
  | idle | running | refused => simp [phase] at next
  | queued row type =>
    simp only [phase, Option.some.injEq] at next
    exact next ▸ .clear row type phase
  | waiting row type =>
    simp only [phase] at next
    split at next
    · next flag =>
      cases next
      exact .leave row type phase (by simpa using flag)
    · cases next
      exact .spin
  | woken row type =>
    simp only [phase] at next
    split at next
    · -- the flag was seen up
      next ready =>
      cases next
      exact .grant row type phase (.inl ready)
    · split at next
      · cases next
        -- `lock_abort` ended the wait, so the request is taken back
        exact .giveUp row type phase
      · next abort =>
        cases next
        exact .grant row type phase (.inr (by simpa using abort))
  | givingUp row type =>
    simp only [phase, Option.some.injEq] at next
    exact next ▸ .refuse row type phase
  | granted row type =>
    simp only [phase, Option.some.injEq] at next
    exact next ▸ .access row type phase
  | cleanup rc restored =>
    simp only [phase] at next
    split at next
    · next none =>
      cases next
      exact .done rc restored phase (List.getLast?_eq_none_iff.mp none)
    · next a last =>
      cases next
      -- `cleanup` goes through the accesses from the last one
      obtain ⟨front, split⟩ := List.getLast?_eq_some_iff.mp last
      exact cleanup_effect phase split

/-- The state after `finish(RCOK)` has been called. -/
def SystemState.commit (s : SystemState ρ τ V) (t : τ) : SystemState ρ τ V :=
  { s with
    committed := fun row => if (s.txn t).writes row then s.data row else s.committed row
    commits := s.commits ++ [(t, (s.txn t).number)] }.goto t (.cleanup .RCOK false)

theorem finish_cases {cfg : Config} {s s' : SystemState ρ τ V} {t : τ} {rc : RC}
    (next : s.step cfg (.finish t rc) = some s') :
    ((s.txn t).phase = .running ∧ s' = s.commit t) ∨
      (((s.txn t).phase = .running ∨ (s.txn t).phase = .refused) ∧
        s' = s.goto t (.cleanup .Abort false)) := by
  simp only [SystemState.step] at next
  split at next
  · next running =>
    cases next
    exact .inl ⟨running, rfl⟩
  · next running =>
    cases next
    exact .inr ⟨.inl running, rfl⟩
  · next refused =>
    cases next
    exact .inr ⟨.inr refused, rfl⟩
  · cases next

end Effect

/-! ### The locks serve the transactions -/

/-- The request of a transaction that has no access to the row yet. -/
def Phase.pending : Phase ρ → Option (ρ × AccessType)
  | .queued row type | .waiting row type | .woken row type | .givingUp row type
  | .granted row type => some (row, type)
  | _ => none

/-- The row whose flag the transaction may look at. -/
def Phase.watches : Phase ρ → Option ρ
  | .queued row _ | .waiting row _ | .woken row _ | .givingUp row _ => some row
  | _ => none

namespace TxnState

variable (x : TxnState ρ V)

/-- The rows that the transaction has asked for and not released. -/
def rows : List ρ := x.accesses.map (·.origRow) ++ (x.phase.pending.map Prod.fst).toList

/-- The locks that the transaction knows to own. -/
def Holds (row : ρ) (type : LockType) : Prop :=
  (∃ a ∈ x.accesses, a.origRow = row ∧ a.type.lockType = type) ∨
    ∃ acc, x.phase = .granted row acc ∧ acc.lockType = type

theorem mem_rows {x : TxnState ρ V} {row : ρ} :
    row ∈ x.rows ↔ (∃ a ∈ x.accesses, a.origRow = row) ∨ ∃ type, x.phase.pending = some (row, type) := by
  simp [rows]

theorem Holds.mem_rows {x : TxnState ρ V} {row : ρ} {type : LockType} (h : x.Holds row type) :
    row ∈ x.rows := by
  rw [TxnState.mem_rows]
  rcases h with ⟨a, ha, e, -⟩ | ⟨acc, e, -⟩
  · exact .inl ⟨a, ha, e⟩
  · exact .inr ⟨acc, by rw [e]; rfl⟩

end TxnState

variable [DecidableEq ρ] [DecidableEq τ]

structure Served (s : SystemState ρ τ V) (q : ρ → Queue τ) : Prop where
  serves : ∀ r, Serves (s.lock r) s.lockReady (fun t => r ∈ (s.txn t).rows)
    (fun t => (s.txn t).phase.watches = some r) (q r)
  once : ∀ t, (s.txn t).rows.Nodup
  owned : ∀ t r type, (s.txn t).Holds r type → ⟨t, type⟩ ∈ (q r).owners
  pending : ∀ t r type, (s.txn t).phase.pending = some (r, type) →
    ⟨t, type.lockType⟩ ∈ (q r).requests
  flags : ∀ t r type, (s.txn t).phase = .woken r type →
    s.lockReady t = true ∨ (s.txn t).lockAbort = true
  idle : ∀ t, (s.txn t).phase = .idle → (s.txn t).accesses = []

/-- What `get_row` makes of its transaction. -/
theorem SystemState.getRow_txn (s : SystemState ρ τ V) (cfg : Config) (t : τ) (row : ρ)
    (type : AccessType) (new : Addr) : ∃ x : TxnState ρ V,
      x = { s.txn t with
        phase := match ((s.lock row).lockGet cfg s.timestamps s.lockReady type.lockType t new).rc with
          | .RCOK => .granted row type
          | .Abort => .refused
          | .WAIT => .queued row type } ∧
        (s.getRow cfg t row type new).txn = Function.update s.txn t x :=
  ⟨_, rfl, rfl⟩

namespace Served

variable {s s' : SystemState ρ τ V} {q : ρ → Queue τ} {t : τ} {x : TxnState ρ V} {row : ρ}

omit [DecidableEq ρ] in
/-- A step of one transaction that calls no lock: it keeps its requests, and it stops
watching a row only with its flag up. -/
theorem walk (h : Served s q) (lock : s'.lock = s.lock) (ready : s'.lockReady = s.lockReady)
    (txn : s'.txn = Function.update s.txn t x) (rows : ∀ r, r ∈ x.rows ↔ r ∈ (s.txn t).rows)
    (once : x.rows.Nodup)
    (watches : ∀ r, x.phase.watches = some r → (s.txn t).phase.watches = some r)
    (stops : ∀ r, (s.txn t).phase.watches = some r →
      x.phase.watches = some r ∨ s.lockReady t = true)
    (owned : ∀ r type, x.Holds r type → ⟨t, type⟩ ∈ (q r).owners)
    (pending : ∀ r type, x.phase.pending = some (r, type) → ⟨t, type.lockType⟩ ∈ (q r).requests)
    (flags : ∀ r type, x.phase = .woken r type → s.lockReady t = true ∨ x.lockAbort = true)
    (idle : x.phase = .idle → x.accesses = []) : Served s' q := by
  refine ⟨fun r => ?_, fun u => ?_, fun u r type => ?_, fun u r type => ?_, fun u r type => ?_,
    fun u => ?_⟩
  · rw [lock, ready]
    refine (h.serves r).elsewhere (fun u => ?_) (fun u watch => ⟨?_, rfl⟩) fun w hw => ?_
    · rw [txn, Function.update_apply]
      split
      · next e => rw [rows r, e]
      · rfl
    · rw [txn, Function.update_apply] at watch
      split at watch
      · next e => exact e ▸ watches r watch
      · exact watch
    · obtain ⟨watched, down⟩ := (h.serves r).asleep w hw
      rw [txn, Function.update_apply]
      split
      · next e =>
        rw [e] at watched down
        refine (stops r watched).resolve_right ?_
        rw [down]
        exact Bool.false_ne_true
      · exact watched
  all_goals rw [txn, Function.update_apply]
  · split
    · exact once
    · exact h.once u
  · split
    · next e => exact e ▸ owned r type
    · exact h.owned u r type
  · split
    · next e => exact e ▸ pending r type
    · exact h.pending u r type
  · rw [ready]
    split
    · next e => exact e ▸ flags r type
    · exact h.flags u r type
  · split
    · exact idle
    · exact h.idle u

/-- `lock_get` of a row that the transaction has not asked for. -/
theorem ask {cfg : Config} {type : AccessType} {new : Addr} (h : Served s q)
    (running : (s.txn t).phase = .running) (other : ∀ a ∈ (s.txn t).accesses, a.origRow ≠ row)
    (fresh : (s.lock row).inUse new = false) :
    Served (s.getRow cfg t row type new)
      (Function.update q row ((q row).get cfg.ccAlg s.timestamps ⟨t, type.lockType⟩).2) := by
  -- a request needs a row without one of the same transaction
  have idle : row ∉ (s.txn t).rows := by
    rw [TxnState.mem_rows]
    rintro (⟨a, ha, e⟩ | ⟨acc, e⟩)
    · exact other a ha e
    · rw [running] at e
      cases e
  have serves := h.serves row
  have spec := (lockGet_spec t cfg s.timestamps s.lockReady serves.represents serves.sound
    (lockType_ne type) fresh).rc
  obtain ⟨x, hx, txn⟩ := s.getRow_txn cfg t row type new
  have lock : (s.getRow cfg t row type new).lock = Function.update s.lock row
      ((s.lock row).lockGet cfg s.timestamps s.lockReady type.lockType t new).lock := rfl
  have ready : (s.getRow cfg t row type new).lockReady =
      ((s.lock row).lockGet cfg s.timestamps s.lockReady type.lockType t new).lockReady := rfl
  -- The phase tells what `lock_get` has answered.
  have accesses : x.accesses = (s.txn t).accesses := by rw [hx]
  have pending : x.phase.pending =
      if ((q row).get cfg.ccAlg s.timestamps ⟨t, type.lockType⟩).1 = .Abort then none
      else some (row, type) := by
    rw [hx, ← spec]
    cases ((s.lock row).lockGet cfg s.timestamps s.lockReady type.lockType t new).rc <;> rfl
  have watches : x.phase.watches =
      if ((q row).get cfg.ccAlg s.timestamps ⟨t, type.lockType⟩).1 = .WAIT then some row
      else none := by
    rw [hx, ← spec]
    cases ((s.lock row).lockGet cfg s.timestamps s.lockReady type.lockType t new).rc <;> rfl
  have granted (r acc) (e : x.phase = .granted r acc) : r = row ∧ acc = type ∧
      ((q row).get cfg.ccAlg s.timestamps ⟨t, type.lockType⟩).1 = .RCOK := by
    rw [hx, ← spec] at *
    cases answer : ((s.lock row).lockGet cfg s.timestamps s.lockReady type.lockType t new).rc
    all_goals
      simp only [answer] at e
      cases e
    exact ⟨rfl, rfl, rfl⟩
  have notWoken (r acc) : x.phase ≠ .woken r acc := by
    rw [hx]
    cases ((s.lock row).lockGet cfg s.timestamps s.lockReady type.lockType t new).rc <;>
      rintro ⟨⟩
  have notIdle : x.phase ≠ .idle := by
    rw [hx]
    cases ((s.lock row).lockGet cfg s.timestamps s.lockReady type.lockType t new).rc <;>
      rintro ⟨⟩
  have rows (r) : r ∈ x.rows ↔ r ∈ (s.txn t).rows ∨
      (row = r ∧ ((q row).get cfg.ccAlg s.timestamps ⟨t, type.lockType⟩).1 ≠ .Abort) := by
    rw [TxnState.mem_rows, TxnState.mem_rows, accesses, pending, running]
    by_cases refused : ((q row).get cfg.ccAlg s.timestamps ⟨t, type.lockType⟩).1 = .Abort <;>
      simp [refused, Phase.pending]
  refine ⟨fun r => ?_, fun u => ?_, fun u r acc => ?_, fun u r acc => ?_, fun u r acc => ?_,
    fun u => ?_⟩
  · -- the queue of the row has a new request, or is as before
    rw [lock, ready]
    simp only [txn]
    by_cases e : r = row
    · subst e
      rw [Function.update_self, Function.update_self]
      refine serves.get cfg s.timestamps (lockType_ne type) fresh idle (fun u => ?_) (fun u ne => ?_) ?_
      · rw [Function.update_apply, spec]
        split
        · next e => simp [rows r, e]
        · next ne => simp [Ne.symm ne]
      · rw [Function.update_of_ne ne]
      · rw [Function.update_self, watches, spec]
        simp
    · rw [Function.update_of_ne e, Function.update_of_ne e]
      -- another row: its watchers keep their flags, and `t`, which was running, watches none
      refine (h.serves r).elsewhere (fun u => ?_) (fun u watch => ?_) fun w hw => ?_
      · rw [Function.update_apply]
        split
        · next e' => simp [rows r, e', Ne.symm e]
        · rfl
      · rw [Function.update_apply] at watch
        split at watch
        · rw [watches] at watch
          split at watch
          · cases watch
            exact absurd rfl e
          · cases watch
        · next ne => exact ⟨watch, serves.get_flag (lockType_ne type) fresh ne⟩
      · obtain ⟨watched, -⟩ := (h.serves r).asleep w hw
        rw [Function.update_of_ne]
        · exact watched
        · intro e'
          rw [e', running] at watched
          cases watched
  all_goals rw [txn, Function.update_apply]
  · split
    · -- a transaction asks for a row at most once
      have before := h.once t
      have old : (s.txn t).rows = (s.txn t).accesses.map (·.origRow) := by
        simp [TxnState.rows, running, Phase.pending]
      rw [TxnState.rows, accesses, ← old, pending]
      split
      · simpa using before
      · refine List.nodup_append.mpr ⟨before, by simp, fun a ha b hb => ?_⟩
        simp only [Option.map_some, Option.toList_some, List.mem_singleton] at hb
        rintro rfl
        exact idle (hb ▸ ha)
    · exact h.once u
  · rw [Function.update_apply]
    split
    · next e =>
      subst e
      rintro (⟨a, ha, e, ta⟩ | ⟨acc', e, ta⟩)
      · rw [accesses] at ha
        -- an access that it had already, of another row
        have owner := h.owned u r acc (.inl ⟨a, ha, e, ta⟩)
        split
        · next e' => exact absurd (e.trans e') (other a ha)
        · exact owner
      · -- the lock that it has just been given
        obtain ⟨rfl, rfl, answer⟩ := granted r acc' e
        rw [if_pos rfl, ← ta]
        exact Queue.mem_get_owners.mpr (.inr ⟨rfl, answer⟩)
    · intro holds
      have owner := h.owned u r acc holds
      split
      · next e' => exact Queue.mem_get_owners.mpr (.inl (e' ▸ owner))
      · exact owner
  · rw [Function.update_apply]
    split
    · next e =>
      subst e
      intro e
      rw [pending] at e
      split at e
      · cases e
      · next answer =>
        cases e
        rw [if_pos rfl]
        exact Queue.mem_get_requests.mpr (.inr ⟨rfl, answer⟩)
    · intro e
      have request := h.pending u r acc e
      split
      · next e' => exact Queue.mem_get_requests.mpr (.inl (e' ▸ request))
      · exact request
  · split
    · -- it has not waited yet
      exact fun e => absurd e (notWoken r acc)
    · next ne =>
      intro e
      rw [ready, serves.get_flag (lockType_ne type) fresh ne]
      exact h.flags u r acc e
  · split
    · exact fun e => absurd e notIdle
    · exact h.idle u

/-- `lock_release` of a row that the transaction has asked for. -/
theorem leave (h : Served s q) (mine : row ∈ (s.txn t).rows)
    (rows : ∀ r, r ∈ x.rows ↔ r ∈ (s.txn t).rows ∧ r ≠ row) (once : x.rows.Nodup)
    (quiet : x.phase.watches = none) (here : ∀ r, (s.txn t).phase.watches = some r → r = row)
    (holds : ∀ r type, x.Holds r type → (s.txn t).Holds r type)
    (none : x.phase.pending = none) (notIdle : x.phase ≠ .idle) :
    Served ((s.lockRelease t row).setTxn t x) (Function.update q row ((q row).release t)) := by
  have consistent := (h.serves row).sound.toConsistent
  have txn : ((s.lockRelease t row).setTxn t x).txn = Function.update s.txn t x := rfl
  have lock : ((s.lockRelease t row).setTxn t x).lock =
      Function.update s.lock row ((s.lock row).lockRelease s.lockReady t).1 := rfl
  have ready : ((s.lockRelease t row).setTxn t x).lockReady =
      ((s.lock row).lockRelease s.lockReady t).2 := rfl
  refine ⟨fun r => ?_, fun u => ?_, fun u r type => ?_, fun u r type => ?_, fun u r type => ?_,
    fun u => ?_⟩
  · rw [lock, ready]
    simp only [txn]
    by_cases e : r = row
    · subst e
      rw [Function.update_self, Function.update_self]
      -- the queue of the row loses the request, and its head may be promoted
      refine (h.serves r).release mine (fun u => ?_) fun u ne => ?_
      · rw [Function.update_apply]
        split
        · next e => simp [rows r, e]
        · next ne => simp [ne]
      · rw [Function.update_of_ne ne]
    · rw [Function.update_of_ne e, Function.update_of_ne e]
      -- a release raises flags of waiters of this row only
      refine (h.serves r).elsewhere (fun u => ?_) (fun u watch => ?_) fun w hw => ?_
      · rw [Function.update_apply]
        split
        · next e' => simp [rows r, e, e']
        · rfl
      · rw [Function.update_apply] at watch
        split at watch
        · rw [quiet] at watch
          cases watch
        · refine ⟨watch, (h.serves row).release_flag mine ?_⟩
          rw [watch]
          exact fun e' => e (Option.some.inj e')
      · obtain ⟨watched, -⟩ := (h.serves r).asleep w hw
        rw [Function.update_of_ne]
        · exact watched
        · intro e'
          -- `t` watches no row but the one that it releases
          exact e (here r (e' ▸ watched))
  all_goals rw [txn, Function.update_apply]
  · split
    · exact once
    · exact h.once u
  · split
    · next e =>
      intro hx
      -- what it still holds is the lock of another row
      rw [Function.update_of_ne ((rows r).mp hx.mem_rows).2, e]
      exact h.owned t r type (holds r type hx)
    · next ne =>
      intro hx
      have owner := h.owned u r type hx
      rw [Function.update_apply]
      split
      · next e =>
        subst e
        exact consistent.mem_release_owners owner ne
      · exact owner
  · split
    · rw [none]
      rintro ⟨⟩
    · next ne =>
      intro hx
      have request := h.pending u r type hx
      rw [Function.update_apply]
      split
      · next e =>
        subst e
        exact consistent.mem_release.mpr ⟨request, ne⟩
      · exact request
  · split
    · intro hx
      rw [hx] at none
      cases none
    · intro hx
      rw [ready]
      -- a flag that is up stays up
      exact (h.flags u r type hx).imp_left ((h.serves row).release_up mine)
  · split
    · exact fun e => absurd e notIdle
    · exact h.idle u

omit [DecidableEq ρ] in
/-- A step between two phases with the same request that still watches its row. -/
theorem shift {p : Phase ρ} (h : Served s q) (lock : s'.lock = s.lock)
    (ready : s'.lockReady = s.lockReady)
    (txn : s'.txn = Function.update s.txn t { s.txn t with phase := p, lockAbort := x.lockAbort })
    (pending : p.pending = (s.txn t).phase.pending)
    (watches : p.watches = (s.txn t).phase.watches)
    (notGranted : ∀ r type, p ≠ .granted r type)
    (flags : ∀ r type, p = .woken r type → s.lockReady t = true ∨ x.lockAbort = true)
    (idle : p = .idle → (s.txn t).phase = .idle) : Served s' q := by
  have rows : TxnState.rows { s.txn t with phase := p, lockAbort := x.lockAbort } = (s.txn t).rows := by
    simp only [TxnState.rows, pending]
  refine h.walk lock ready txn (fun r => by rw [rows]) (by rw [rows]; exact h.once t)
    (fun r e => watches ▸ e) (fun r e => .inl (watches.symm ▸ e)) (fun r type holds => ?_)
    (fun r type e => h.pending t r type (pending ▸ e)) flags fun e => h.idle t (idle e)
  -- the locks it knows to own are those of its accesses
  rcases holds with mem | ⟨acc, e, -⟩
  · exact h.owned t r type (.inl mem)
  · exact absurd e (notGranted r acc)

theorem next (h : Served s q) (effect : NextEffect s t s') : ∃ q', Served s' q' := by
  cases effect with
  | spin => exact ⟨q, h⟩
  | clear row type here =>
    refine ⟨q, h.shift (x := { s.txn t with lockAbort := false }) rfl rfl rfl ?_ ?_ ?_ ?_ ?_⟩
    · rw [here]; rfl
    · rw [here]; rfl
    · exact fun _ _ e => nomatch e
    · exact fun _ _ e => nomatch e
    · rintro ⟨⟩
  | leave row type here flag =>
    refine ⟨q, h.shift (x := s.txn t) rfl rfl rfl ?_ ?_ ?_ (fun _ _ _ => flag) ?_⟩
    · rw [here]; rfl
    · rw [here]; rfl
    · exact fun _ _ e => nomatch e
    · rintro ⟨⟩
  | giveUp row type here =>
    refine ⟨q, h.shift (x := s.txn t) rfl rfl rfl ?_ ?_ ?_ ?_ ?_⟩
    · rw [here]; rfl
    · rw [here]; rfl
    · exact fun _ _ e => nomatch e
    · exact fun _ _ e => nomatch e
    · rintro ⟨⟩
  | grant row type here flag =>
    -- it has seen the flag, or was woken without an abort, and then the flag was up
    have up : s.lockReady t = true := by
      rcases flag with up | down
      · exact up
      · refine (h.flags t row type here).resolve_right ?_
        rw [down]
        exact Bool.false_ne_true
    -- Its request is not among the waiters, whose flags are down.
    have owner : ⟨t, type.lockType⟩ ∈ (q row).owners := by
      rcases List.mem_append.mp (h.pending t row type (by rw [here]; rfl)) with mem | mem
      · exact mem
      · have down := ((h.serves row).asleep _ mem).2
        rw [up] at down
        cases down
    -- a grant changes no request, so the rows are the same
    have rows : TxnState.rows { s.txn t with phase := .granted row type } = (s.txn t).rows := by
      simp only [TxnState.rows, here]
      rfl
    refine ⟨q, h.walk (t := t) (x := { s.txn t with phase := .granted row type }) rfl rfl rfl
      (fun r => by rw [rows]) (by rw [rows]; exact h.once t) (fun r e => nomatch e)
      (fun r e => .inr up) (fun r mode holds => ?_) (fun r acc e => ?_) (fun r acc e => nomatch e)
      fun e => nomatch e⟩
    · rcases holds with mem | ⟨acc, e, rfl⟩
      · exact h.owned t r mode (.inl mem)
      · cases e
        exact owner
    · cases e
      exact List.mem_append_left _ owner
  | refuse row type here =>
    -- the row that it gives up is its pending one, beside those of its accesses
    have mine : row ∈ (s.txn t).rows := TxnState.mem_rows.mpr (.inr ⟨type, by rw [here]; rfl⟩)
    have once := h.once t
    rw [TxnState.rows, here] at once
    have rows (r) : r ∈ TxnState.rows { s.txn t with phase := .refused } ↔
        r ∈ (s.txn t).rows ∧ r ≠ row := by
      simp only [TxnState.rows, here, Phase.pending, Option.map_none, Option.toList_none,
        List.append_nil, Option.map_some, Option.toList_some, List.mem_append, List.mem_singleton]
      have apart := (List.nodup_append.mp once).2.2
      constructor
      · intro mem
        exact ⟨.inl mem, fun e => apart r mem row (by simp [Phase.pending]) e⟩
      · rintro ⟨mem | e, ne⟩
        · exact mem
        · exact absurd e ne
    refine ⟨_, h.leave (x := { s.txn t with phase := .refused }) mine rows ?_ rfl ?_ ?_ rfl
      fun e => nomatch e⟩
    · simpa [TxnState.rows, Phase.pending] using (List.nodup_append.mp once).1
    · intro r e
      rw [here] at e
      cases e
      rfl
    · rintro r mode (mem | ⟨acc, e, -⟩)
      · exact .inl mem
      · cases e
  | access row type here =>
    let x : TxnState ρ V := { s.txn t with
      phase := .running
      accesses := (s.txn t).accesses ++
        [⟨row, type, if type = .WR then some (s.data row) else none⟩] }
    -- the pending request becomes the last access
    have rows : x.rows = (s.txn t).rows := by
      simp [x, TxnState.rows, here, Phase.pending]
    refine ⟨q, h.walk (t := t) (x := x) rfl rfl rfl (fun r => by rw [rows])
      (by rw [rows]; exact h.once t) (fun r e => nomatch e) (fun r e => ?_) (fun r mode holds => ?_)
      (fun r acc e => nomatch e) (fun r acc e => nomatch e) fun e => nomatch e⟩
    · rw [here] at e
      cases e
    · rcases holds with ⟨a, mem, e, mode⟩ | ⟨acc, e, -⟩
      · rcases List.mem_append.mp mem with mem | mem
        · exact h.owned t r _ (.inl ⟨a, mem, e, mode⟩)
        · rw [List.mem_singleton] at mem
          subst mem
          exact h.owned t r _ (.inr ⟨type, e ▸ here, mode⟩)
      · cases e
  | done rc restored here empty =>
    let x : TxnState ρ V := { s.txn t with phase := .idle }
    have rows : x.rows = (s.txn t).rows := by
      simp [x, TxnState.rows, here, Phase.pending]
    refine ⟨q, h.walk (t := t) (x := x) rfl rfl rfl (fun r => by rw [rows])
      (by rw [rows]; exact h.once t) (fun r e => nomatch e) (fun r e => ?_) (fun r mode holds => ?_)
      (fun r acc e => nomatch e) (fun r acc e => nomatch e) fun _ => empty⟩
    · rw [here] at e
      cases e
    · rcases holds with mem | ⟨acc, e, -⟩
      · exact h.owned t r mode (.inl mem)
      · cases e
  | restore front a v here split write image =>
    refine ⟨q, h.shift (x := s.txn t) rfl rfl rfl ?_ ?_ ?_ ?_ ?_⟩
    · rw [here]; rfl
    · rw [here]; rfl
    · exact fun _ _ e => nomatch e
    · exact fun _ _ e => nomatch e
    · rintro ⟨⟩
  | release rc restored front a here split clean =>
    let x : TxnState ρ V := { s.txn t with phase := .cleanup rc false, accesses := front }
    -- the last access goes, and its row with it
    have mine : a.origRow ∈ (s.txn t).rows :=
      TxnState.mem_rows.mpr (.inl ⟨a, by simp [split], rfl⟩)
    have once := h.once t
    have old : (s.txn t).rows = front.map (·.origRow) ++ [a.origRow] := by
      simp [TxnState.rows, here, Phase.pending, split]
    have new : x.rows = front.map (·.origRow) := by
      simp [x, TxnState.rows, Phase.pending]
    rw [old] at once
    refine ⟨_, h.leave (x := x) mine (fun r => ?_) ?_ rfl ?_ ?_ rfl fun e => nomatch e⟩
    · rw [old, new, List.mem_append, List.mem_singleton]
      have apart := (List.nodup_append.mp once).2.2
      constructor
      · intro mem
        exact ⟨.inl mem, apart r mem a.origRow (List.mem_singleton_self _)⟩
      · rintro ⟨mem | e, ne⟩
        · exact mem
        · exact absurd e ne
    · rw [new]
      exact (List.nodup_append.mp once).1
    · intro r e
      rw [here] at e
      cases e
    · rintro r mode (⟨b, mem, rest⟩ | ⟨acc, e, -⟩)
      · exact .inl ⟨b, by rw [split]; exact List.mem_append_left _ mem, rest⟩
      · cases e

theorem step {cfg : Config} {a : SystemLabel ρ τ V} (h : Served s q) (next : s.step cfg a = some s') :
    ∃ q', Served s' q' := by
  cases a with
  | start t ts =>
    obtain ⟨here, e⟩ := (Option.ite_none_right_eq_some).mp next
    cases e
    -- an idle transaction holds nothing, so the new one starts without requests
    have rows : (s.txn t).rows = [] := by simp [TxnState.rows, here, h.idle t here, Phase.pending]
    refine ⟨q, h.walk (t := t) (x := { s.txn t with
      phase := .running, accesses := [], ts, number := (s.txn t).number + 1 }) rfl rfl rfl
      (fun r => ?_) List.nodup_nil (fun r e => nomatch e) (fun r e => ?_) (fun r mode holds => ?_)
      (fun r acc e => nomatch e) (fun r acc e => nomatch e) fun _ => rfl⟩
    · rw [rows]
      exact Iff.rfl
    · rw [here] at e
      cases e
    · rcases holds with ⟨a, mem, -⟩ | ⟨acc, e, -⟩
      · cases mem
      · cases e
  | getRow t row type new =>
    obtain ⟨⟨running, other, -, fresh⟩, e⟩ := (Option.ite_none_right_eq_some).mp next
    cases e
    exact ⟨_, h.ask running other fresh⟩
  | next t => exact h.next (next_effect next)
  | setAbort t =>
    obtain ⟨-, e⟩ := (Option.ite_none_right_eq_some).mp next
    cases e
    exact ⟨q, h.walk (t := t) (x := { s.txn t with lockAbort := true }) rfl rfl rfl
      (fun r => Iff.rfl) (h.once t) (fun r e => e) (fun r e => .inl e) (h.owned t) (h.pending t)
      (fun _ _ _ => .inr rfl) (h.idle t)⟩
  | readRow t row =>
    obtain ⟨-, e⟩ := (Option.ite_none_right_eq_some).mp next
    cases e
    -- reads and writes of rows touch no lock
    exact ⟨q, ⟨h.serves, h.once, h.owned, h.pending, h.flags, h.idle⟩⟩
  | writeRow t row v =>
    obtain ⟨-, e⟩ := (Option.ite_none_right_eq_some).mp next
    cases e
    exact ⟨q, ⟨h.serves, h.once, h.owned, h.pending, h.flags, h.idle⟩⟩
  | finish t rc =>
    rcases finish_cases next with ⟨running, rfl⟩ | ⟨here, rfl⟩
    · refine ⟨q, h.shift (x := s.txn t) rfl rfl rfl ?_ ?_ ?_ ?_ ?_⟩
      · rw [running]; rfl
      · rw [running]; rfl
      · exact fun _ _ e => nomatch e
      · exact fun _ _ e => nomatch e
      · rintro ⟨⟩
    · refine ⟨q, h.shift (x := s.txn t) rfl rfl rfl ?_ ?_ ?_ ?_ ?_⟩
      · rcases here with here | here <;> rw [here] <;> rfl
      · rcases here with here | here <;> rw [here] <;> rfl
      · exact fun _ _ e => nomatch e
      · exact fun _ _ e => nomatch e
      · rintro ⟨⟩

end Served

/-! ### Rows are clean or have their before-image -/

/-- The accesses whose writes may stand in the rows although they are not committed. -/
def TxnState.unrestored (x : TxnState ρ V) : List (Access ρ V) :=
  match x.phase with
  | .cleanup .Abort false => x.accesses
  | .cleanup .Abort true => x.accesses.dropLast
  | .cleanup _ _ => []
  | _ => x.accesses

omit [DecidableEq ρ] in
theorem TxnState.unrestored_subset {x : TxnState ρ V} {a : Access ρ V} (mem : a ∈ x.unrestored) :
    a ∈ x.accesses := by
  unfold unrestored at mem
  split at mem
  · exact mem
  · exact (List.dropLast_sublist _).subset mem
  · cases mem
  · exact mem

omit [DecidableEq ρ] [DecidableEq τ] in
/-- A row that a transaction has accessed for writing is accessed by no other one. -/
theorem Served.exclusive {s : SystemState ρ τ V} {q : ρ → Queue τ} {t u : τ} {a : Access ρ V}
    {type : LockType} (h : Served s q) (mem : a ∈ (s.txn t).accesses) (write : a.type = .WR)
    (holds : (s.txn u).Holds a.origRow type) : u = t := by
  have mine := h.owned t a.origRow .lockEx (.inl ⟨a, mem, rfl, by rw [write]; rfl⟩)
  have other := h.owned u a.origRow type holds
  exact congrArg Request.txn ((h.serves a.origRow).sound.toConsistent.exclusive mine rfl other)

structure Clean (s : SystemState ρ τ V) : Prop where
  data : ∀ r, s.data r = s.committed r ∨
    ∃ t, ∃ a ∈ (s.txn t).unrestored, a.origRow = r ∧ a.type = .WR
  image : ∀ t, ∀ a ∈ (s.txn t).unrestored, a.type = .WR → a.origData = some (s.committed a.origRow)

namespace Clean

variable {s s' : SystemState ρ τ V} {q : ρ → Queue τ} {t : τ} {x : TxnState ρ V} {row : ρ}

omit [DecidableEq ρ] in
/-- A step of one transaction that leaves the rows and its uncommitted writes as they are. -/
theorem walk (h : Clean s) (data : s'.data = s.data) (committed : s'.committed = s.committed)
    (txn : s'.txn = Function.update s.txn t x)
    (same : ∀ a, a.type = .WR → (a ∈ x.unrestored ↔ a ∈ (s.txn t).unrestored)) : Clean s' := by
  have kept (u) (a : Access ρ V) (write : a.type = .WR) :
      a ∈ (s'.txn u).unrestored ↔ a ∈ (s.txn u).unrestored := by
    rw [txn, Function.update_apply]
    split
    · next e => rw [e, same a write]
    · rfl
  refine ⟨fun r => ?_, fun u a mem write => ?_⟩
  · rw [data, committed]
    refine (h.data r).imp_right ?_
    rintro ⟨u, a, mem, e, write⟩
    exact ⟨u, a, (kept u a write).mpr mem, e, write⟩
  · rw [committed]
    exact h.image u a ((kept u a write).mp mem) write

theorem next (h : Clean s) (served : Served s q) (effect : NextEffect s t s') : Clean s' := by
  cases effect with
  | spin => exact h
  | clear row type here =>
    exact h.walk rfl rfl rfl fun a _ => by simp [TxnState.unrestored, here]
  | leave row type here flag =>
    exact h.walk rfl rfl rfl fun a _ => by simp [TxnState.unrestored, here]
  | grant row type here flag =>
    exact h.walk rfl rfl rfl fun a _ => by simp [TxnState.unrestored, here]
  | giveUp row type here =>
    exact h.walk rfl rfl rfl fun a _ => by simp [TxnState.unrestored, here]
  | refuse row type here =>
    exact h.walk (x := { s.txn t with phase := .refused }) rfl rfl rfl
      fun a _ => by simp [TxnState.unrestored, here]
  | done rc restored here empty =>
    refine h.walk (x := { s.txn t with phase := .idle }) rfl rfl rfl fun a _ => ?_
    have none (y : TxnState ρ V) (e : y.accesses = []) : a ∉ y.unrestored := by
      intro mem
      have := TxnState.unrestored_subset mem
      rw [e] at this
      cases this
    -- without accesses there is nothing to restore
    exact ⟨fun mem => absurd mem (none _ empty), fun mem => absurd mem (none _ empty)⟩
  | access row type here =>
    let x : TxnState ρ V := { s.txn t with
      phase := .running
      accesses := (s.txn t).accesses ++
        [⟨row, type, if type = .WR then some (s.data row) else none⟩] }
    have before : (s.txn t).unrestored = (s.txn t).accesses := by simp [TxnState.unrestored, here]
    have after : x.unrestored = x.accesses := rfl
    -- an access is added, and none is lost
    have txn (u) (a : Access ρ V) (mem : a ∈ (s.txn u).unrestored) :
        a ∈ (Function.update s.txn t x u).unrestored := by
      rw [Function.update_apply]
      split
      · next e =>
        rw [after]
        rw [e, before] at mem
        exact List.mem_append_left _ mem
      · exact mem
    refine ⟨fun r => (h.data r).imp_right ?_, fun u a mem write => ?_⟩
    · rintro ⟨u, a, mem, rest⟩
      exact ⟨u, a, txn u a mem, rest⟩
    · change a ∈ (Function.update s.txn t x u).unrestored at mem
      rw [Function.update_apply] at mem
      split at mem
      · rw [after] at mem
        rcases List.mem_append.mp mem with mem | mem
        · exact h.image t a (before ▸ mem) write
        · -- The before-image is taken under the exclusive lock, before anything is written.
          rw [List.mem_singleton] at mem
          subst mem
          cases write
          refine congrArg some ((h.data row).resolve_right ?_)
          rintro ⟨u, b, dirty, rfl, write⟩
          have access := TxnState.unrestored_subset dirty
          have e := served.exclusive access write (u := t) (.inr ⟨.WR, here, rfl⟩)
          subst e
          have once := served.once t
          rw [TxnState.rows, here] at once
          exact (List.nodup_append.mp once).2.2 b.origRow (List.mem_map_of_mem access) b.origRow
            (by simp [Phase.pending]) rfl
      · exact h.image u a mem write
  | restore front a v here split write image =>
    let x : TxnState ρ V := { s.txn t with phase := .cleanup .Abort true }
    have before : (s.txn t).unrestored = front ++ [a] := by simp [TxnState.unrestored, here, split]
    have after : x.unrestored = front := by simp [x, TxnState.unrestored, split]
    -- the value that is put back is the committed one
    have value : v = s.committed a.origRow := by
      have := h.image t a (by simp [before]) write
      rw [image] at this
      exact Option.some.inj this
    refine ⟨fun r => ?_, fun u b mem writeB => ?_⟩
    · change Function.update s.data a.origRow v r = s.committed r ∨
        ∃ u, ∃ b ∈ (Function.update s.txn t x u).unrestored, b.origRow = r ∧ b.type = .WR
      rw [Function.update_apply]
      split
      · -- the row is clean again
        next e => exact .inl (e ▸ value)
      · next ne =>
        refine (h.data r).imp_right ?_
        rintro ⟨u, b, mem, rfl, writeB⟩
        refine ⟨u, b, ?_, rfl, writeB⟩
        rw [Function.update_apply]
        split
        · next e =>
          rw [e, before] at mem
          rw [after]
          rcases List.mem_append.mp mem with mem | mem
          · exact mem
          · rw [List.mem_singleton] at mem
            -- only its own access is taken from the list of those to restore
            exact absurd (congrArg Access.origRow mem) ne
        · exact mem
    · change b ∈ (Function.update s.txn t x u).unrestored at mem
      rw [Function.update_apply] at mem
      split at mem
      · rw [after] at mem
        exact h.image t b (by simp [before, mem]) writeB
      · exact h.image u b mem writeB
  | release rc restored front a here split clean =>
    refine h.walk (x := { s.txn t with phase := .cleanup rc false, accesses := front }) rfl rfl rfl
      fun b write => ?_
    cases rc with
    | RCOK => simp [TxnState.unrestored, here]
    | WAIT => simp [TxnState.unrestored, here]
    | Abort =>
      cases restored with
      | true => simp [TxnState.unrestored, here, split]
      | false =>
        -- A row that was written has its before-image, so it is restored before its release.
        have other : b ≠ a := by
          rintro rfl
          have mem : b ∈ (s.txn t).unrestored := by simp [TxnState.unrestored, here, split]
          have image := h.image t b mem write
          simp [write, image] at clean
        simp [TxnState.unrestored, here, split, other]

/-- At its commit a transaction has written its rows for good. -/
theorem commit (h : Clean s) (served : Served s q) (running : (s.txn t).phase = .running) :
    Clean (s.commit t) := by
  let x : TxnState ρ V := { s.txn t with phase := .cleanup .RCOK false }
  have before : (s.txn t).unrestored = (s.txn t).accesses := by simp [TxnState.unrestored, running]
  have after : x.unrestored = [] := rfl
  have writes (r) : (s.txn t).writes r = true ↔
      ∃ a ∈ (s.txn t).accesses, a.origRow = r ∧ a.type = .WR := by
    simp [TxnState.writes]
  have others (u) (ne : u ≠ t) : Function.update s.txn t x u = s.txn u := Function.update_of_ne ne ..
  refine ⟨fun r => ?_, fun u a mem write => ?_⟩
  · change s.data r = (if (s.txn t).writes r = true then s.data r else s.committed r) ∨
      ∃ u, ∃ a ∈ (Function.update s.txn t x u).unrestored, a.origRow = r ∧ a.type = .WR
    split
    · -- its own writes are committed now
      exact .inl rfl
    · next none =>
      refine (h.data r).imp_right ?_
      rintro ⟨u, a, mem, e, write⟩
      -- the row is dirty by another transaction, which is still running
      have ne : u ≠ t := by
        rintro rfl
        exact none ((writes r).mpr ⟨a, before ▸ mem, e, write⟩)
      exact ⟨u, a, (others u ne).symm ▸ mem, e, write⟩
  · change a ∈ (Function.update s.txn t x u).unrestored at mem
    change a.origData =
      some (if (s.txn t).writes a.origRow = true then s.data a.origRow else s.committed a.origRow)
    by_cases e : u = t
    · rw [e, Function.update_self, after] at mem
      cases mem
    · rw [others u e] at mem
      rw [if_neg]
      · exact h.image u a mem write
      · -- a row that `t` has written is accessed by no other transaction
        rw [writes]
        rintro ⟨b, memB, rowB, writeB⟩
        exact e (served.exclusive memB writeB
          (.inl ⟨a, TxnState.unrestored_subset mem, rowB.symm, rfl⟩))

theorem step {cfg : Config} {a : SystemLabel ρ τ V} (h : Clean s) (served : Served s q)
    (next : s.step cfg a = some s') : Clean s' := by
  cases a with
  | start t ts =>
    obtain ⟨here, e⟩ := (Option.ite_none_right_eq_some).mp next
    cases e
    have none := served.idle t here
    exact h.walk (t := t) (x := { s.txn t with
      phase := .running, accesses := [], ts, number := (s.txn t).number + 1 }) rfl rfl rfl
      fun a _ => by simp [TxnState.unrestored, here, none]
  | getRow t row type new =>
    obtain ⟨⟨running, -⟩, e⟩ := (Option.ite_none_right_eq_some).mp next
    cases e
    obtain ⟨x, hx, txn⟩ := s.getRow_txn cfg t row type new
    refine h.walk rfl rfl txn fun a _ => ?_
    rw [hx]
    cases ((s.lock row).lockGet cfg s.timestamps s.lockReady type.lockType t new).rc <;>
      simp [TxnState.unrestored, running]
  | next t => exact h.next served (next_effect next)
  | setAbort t =>
    obtain ⟨-, e⟩ := (Option.ite_none_right_eq_some).mp next
    cases e
    exact h.walk (t := t) (x := { s.txn t with lockAbort := true }) rfl rfl rfl fun a _ => Iff.rfl
  | readRow t row =>
    obtain ⟨-, e⟩ := (Option.ite_none_right_eq_some).mp next
    cases e
    exact ⟨h.data, h.image⟩
  | writeRow t row v =>
    obtain ⟨⟨running, writes⟩, e⟩ := (Option.ite_none_right_eq_some).mp next
    cases e
    refine ⟨fun r => ?_, h.image⟩
    change Function.update s.data row v r = s.committed r ∨
      ∃ u, ∃ a ∈ (s.txn u).unrestored, a.origRow = r ∧ a.type = .WR
    rw [Function.update_apply]
    split
    · next e =>
      -- the row may be dirty now, by an access for writing that has its before-image
      obtain ⟨a, mem, found⟩ := List.any_eq_true.mp writes
      obtain ⟨origRow, write⟩ := of_decide_eq_true found
      exact .inr ⟨t, a, by simpa [TxnState.unrestored, running] using mem, e ▸ origRow, write⟩
    · exact h.data r
  | finish t rc =>
    rcases finish_cases next with ⟨running, rfl⟩ | ⟨here, rfl⟩
    · exact h.commit served running
    · refine h.walk (t := t) (x := { s.txn t with phase := .cleanup .Abort false }) rfl rfl rfl
        fun a _ => ?_
      rcases here with here | here <;> simp [TxnState.unrestored, here]

end Clean

/-! ### Conflicting operations follow each other's transactions -/

/-- The transaction runs and has not called `finish`. -/
def Phase.active : Phase ρ → Bool
  | .idle | .cleanup _ _ => false
  | _ => true

def SystemState.Live (s : SystemState ρ τ V) (i : τ × Nat) : Prop :=
  i.2 = (s.txn i.1).number ∧ (s.txn i.1).phase.active = true

def Event.Conflicts (e f : Event ρ τ) : Prop :=
  e.row = f.row ∧ (e.write = true ∨ f.write = true) ∧ e.txn ≠ f.txn

structure Ordered (s : SystemState ρ τ V) : Prop where
  past : ∀ e ∈ s.history, e.txn.2 ≤ (s.txn e.txn.1).number
  held : ∀ e ∈ s.history, s.Live e.txn →
    ∃ a ∈ (s.txn e.txn.1).accesses, a.origRow = e.row ∧ (e.write = true → a.type = .WR)
  done : ∀ i ∈ s.commits, i.2 ≤ (s.txn i.1).number ∧ ¬ s.Live i
  order : s.history.Pairwise fun e f => e.Conflicts f → ¬ s.Live e.txn ∧
    (e.txn ∈ s.commits → f.txn ∈ s.commits → List.Sublist [e.txn, f.txn] s.commits)

namespace Ordered

variable {s s' : SystemState ρ τ V} {q : ρ → Queue τ} {t : τ} {x : TxnState ρ V} {row : ρ}

omit [DecidableEq ρ] in
/-- A step of one transaction that performs no operation and does not commit: no transaction
comes back to life, and a live one keeps its accesses. -/
theorem walk (h : Ordered s) (history : s'.history = s.history) (commits : s'.commits = s.commits)
    (txn : s'.txn = Function.update s.txn t x) (number : (s.txn t).number ≤ x.number)
    (live : x.number = (s.txn t).number → x.phase.active = true →
      (s.txn t).phase.active = true ∧ ∀ a ∈ (s.txn t).accesses, a ∈ x.accesses) : Ordered s' := by
  have later (u) : (s.txn u).number ≤ (s'.txn u).number := by
    rw [txn, Function.update_apply]
    split
    · next e => exact e ▸ number
    · exact Nat.le_refl _
  -- A transaction of the past that is live now was live before.
  have before (i : τ × Nat) (old : i.2 ≤ (s.txn i.1).number) (now : s'.Live i) :
      s.Live i ∧ ∀ a ∈ (s.txn i.1).accesses, a ∈ (s'.txn i.1).accesses := by
    obtain ⟨current, active⟩ := now
    rw [txn, Function.update_apply] at current active
    rw [txn, Function.update_apply]
    split at current
    · next e =>
      rw [if_pos e] at active ⊢
      rw [e] at old
      -- the number of `t` only grows, so a transaction of the past is the current one
      have same : x.number = (s.txn t).number := by omega
      obtain ⟨was, kept⟩ := live same active
      refine ⟨⟨?_, e ▸ was⟩, e ▸ kept⟩
      rw [e, ← same]
      exact current
    · next ne =>
      rw [if_neg ne] at active ⊢
      exact ⟨⟨current, active⟩, fun a mem => mem⟩
  refine ⟨fun e mem => ?_, fun e mem now => ?_, fun i mem => ?_, ?_⟩
  · rw [history] at mem
    exact Nat.le_trans (h.past e mem) (later _)
  · rw [history] at mem
    obtain ⟨was, kept⟩ := before _ (h.past e mem) now
    obtain ⟨a, access, rest⟩ := h.held e mem was
    exact ⟨a, kept a access, rest⟩
  · rw [commits] at mem
    obtain ⟨old, finished⟩ := h.done i mem
    exact ⟨Nat.le_trans old (later _), fun now => finished (before i old now).1⟩
  · rw [history, commits]
    refine h.order.imp_of_mem fun {e f} memE _ rel conflict => ?_
    obtain ⟨finished, order⟩ := rel conflict
    exact ⟨fun now => finished (before _ (h.past e memE) now).1, order⟩

omit [DecidableEq ρ] [DecidableEq τ] in
/-- An operation: whoever has performed a conflicting one before holds no lock any more. -/
theorem perform (write : Bool) (h : Ordered s) (served : Served s q)
    (running : (s.txn t).phase = .running) (access : ∃ a ∈ (s.txn t).accesses, a.origRow = row ∧
      (write = true → a.type = .WR)) : Ordered (s.perform t row write) := by
  have live : s.Live (t, (s.txn t).number) := ⟨rfl, by rw [running]; rfl⟩
  refine ⟨fun e mem => ?_, fun e mem now => ?_, h.done, ?_⟩
  · rcases List.mem_append.mp mem with mem | mem
    · exact h.past e mem
    · rw [List.mem_singleton] at mem
      rw [mem]
      exact Nat.le_refl _
  · rcases List.mem_append.mp mem with mem | mem
    · exact h.held e mem now
    · rw [List.mem_singleton] at mem
      rw [mem]
      exact access
  · refine List.pairwise_append.mpr ⟨h.order, List.pairwise_singleton .., fun e mem f new => ?_⟩
    rw [List.mem_singleton] at new
    subst new
    rintro ⟨here, writes, other⟩
    dsimp only at here writes other
    refine ⟨fun now => ?_, fun _ committed => absurd live (h.done _ committed).2⟩
    -- Both would have access to the row, and one of them for writing.
    obtain ⟨a, accessA, rowA, writeA⟩ := h.held e mem now
    obtain ⟨b, accessB, rowB, writeB⟩ := access
    have e' : e.txn.1 = t := by
      rcases writes with writes | writes
      · exact (served.exclusive accessA (writeA writes)
          (.inl ⟨b, accessB, by rw [rowB, rowA, here], rfl⟩)).symm
      · exact served.exclusive accessB (writeB writes)
          (.inl ⟨a, accessA, by rw [rowA, rowB, here], rfl⟩)
    apply other
    have current : e.txn.2 = (s.txn e.txn.1).number := now.1
    rw [← e', ← current]

/-- A commit: all that conflicted with its operations before has finished before. -/
theorem commit (h : Ordered s) (running : (s.txn t).phase = .running) : Ordered (s.commit t) := by
  have live : s.Live (t, (s.txn t).number) := ⟨rfl, by rw [running]; rfl⟩
  let s₁ : SystemState ρ τ V := s.goto t (.cleanup .RCOK false)
  have walked : Ordered s₁ :=
    h.walk (t := t) (x := { s.txn t with phase := .cleanup .RCOK false }) rfl rfl rfl (Nat.le_refl _)
      fun _ e => by cases e
  -- `cleanup` is not an active phase
  have finished : ¬ s₁.Live (t, (s.txn t).number) := by
    rintro ⟨-, active⟩
    simp [s₁, SystemState.goto, SystemState.setTxn, Phase.active] at active
  refine ⟨walked.past, walked.held, fun i mem => ?_, ?_⟩
  · rcases List.mem_append.mp mem with mem | mem
    · exact walked.done i mem
    · rw [List.mem_singleton] at mem
      rw [mem]
      refine ⟨?_, finished⟩
      simp [SystemState.commit, SystemState.goto, SystemState.setTxn]
  · refine (h.order.and walked.order).imp fun {e f} rel conflict => ?_
    obtain ⟨before, -⟩ := rel.1 conflict
    refine ⟨(rel.2 conflict).1, fun memE memF => ?_⟩
    rcases List.mem_append.mp memE with memE | memE
    · rcases List.mem_append.mp memF with memF | memF
      · exact ((rel.1 conflict).2 memE memF).trans (List.sublist_append_left ..)
      · rw [List.mem_singleton] at memF
        rw [memF]
        -- the new commit is the last of the list
        have := (List.singleton_sublist.mpr memE).append (List.Sublist.refl [(t, (s.txn t).number)])
        exact this
    · -- The committing transaction was live until now.
      rw [List.mem_singleton] at memE
      rw [memE] at before
      exact absurd live before

theorem next (h : Ordered s) (effect : NextEffect s t s') : Ordered s' := by
  cases effect with
  | spin => exact h
  | clear row type here =>
    exact h.walk rfl rfl rfl (Nat.le_refl _) fun _ _ => ⟨by rw [here]; rfl, fun a mem => mem⟩
  | leave row type here flag =>
    exact h.walk rfl rfl rfl (Nat.le_refl _) fun _ _ => ⟨by rw [here]; rfl, fun a mem => mem⟩
  | grant row type here flag =>
    exact h.walk rfl rfl rfl (Nat.le_refl _) fun _ _ => ⟨by rw [here]; rfl, fun a mem => mem⟩
  | giveUp row type here =>
    exact h.walk rfl rfl rfl (Nat.le_refl _) fun _ _ => ⟨by rw [here]; rfl, fun a mem => mem⟩
  | refuse row type here =>
    exact h.walk (x := { s.txn t with phase := .refused }) rfl rfl rfl (Nat.le_refl _)
      fun _ _ => ⟨by rw [here]; rfl, fun a mem => mem⟩
  | access row type here =>
    exact h.walk rfl rfl rfl (Nat.le_refl _)
      fun _ _ => ⟨by rw [here]; rfl, fun a mem => List.mem_append_left _ mem⟩
  | done rc restored here empty =>
    exact h.walk (x := { s.txn t with phase := .idle }) rfl rfl rfl (Nat.le_refl _)
      fun _ e => by cases e
  | restore front a v here split write image =>
    exact h.walk (t := t) (x := { s.txn t with phase := .cleanup .Abort true }) rfl rfl rfl
      (Nat.le_refl _) fun _ e => by cases e
  | release rc restored front a here split clean =>
    exact h.walk (t := t) (x := { s.txn t with phase := .cleanup rc false, accesses := front })
      rfl rfl rfl (Nat.le_refl _) fun _ e => by cases e

theorem step {cfg : Config} {a : SystemLabel ρ τ V} (h : Ordered s) (served : Served s q)
    (next : s.step cfg a = some s') : Ordered s' := by
  cases a with
  | start t ts =>
    obtain ⟨here, e⟩ := (Option.ite_none_right_eq_some).mp next
    cases e
    -- a new number: nothing of the past is live with it
    refine h.walk (t := t) (x := { s.txn t with
      phase := .running, accesses := [], ts, number := (s.txn t).number + 1 }) rfl rfl rfl
      (Nat.le_succ _) fun e => ?_
    simp at e
  | getRow t row type new =>
    obtain ⟨⟨running, -⟩, e⟩ := (Option.ite_none_right_eq_some).mp next
    cases e
    obtain ⟨x, hx, txn⟩ := s.getRow_txn cfg t row type new
    subst hx
    exact h.walk rfl rfl txn (Nat.le_refl _) fun _ _ => ⟨by rw [running]; rfl, fun a mem => mem⟩
  | next t => exact h.next (next_effect next)
  | setAbort t =>
    obtain ⟨-, e⟩ := (Option.ite_none_right_eq_some).mp next
    cases e
    exact h.walk (t := t) (x := { s.txn t with lockAbort := true }) rfl rfl rfl (Nat.le_refl _)
      fun _ e => ⟨e, fun a mem => mem⟩
  | readRow t row =>
    obtain ⟨⟨running, a, mem, e'⟩, e⟩ := (Option.ite_none_right_eq_some).mp next
    cases e
    exact h.perform false served running ⟨a, mem, e', fun e => nomatch e⟩
  | writeRow t row v =>
    obtain ⟨⟨running, writes⟩, e⟩ := (Option.ite_none_right_eq_some).mp next
    cases e
    obtain ⟨a, mem, found⟩ := List.any_eq_true.mp writes
    obtain ⟨origRow, write⟩ := of_decide_eq_true found
    have performed := h.perform true served running ⟨a, mem, origRow, fun _ => write⟩
    exact ⟨performed.past, performed.held, performed.done, performed.order⟩
  | finish t rc =>
    rcases finish_cases next with ⟨running, rfl⟩ | ⟨here, rfl⟩
    · exact h.commit running
    · exact h.walk (t := t) (x := { s.txn t with phase := .cleanup .Abort false }) rfl rfl rfl
        (Nat.le_refl _) fun _ e => by cases e

end Ordered

/-! ### The guarantees -/

end DBx1000.Locking
