import DBx1000.Library.LockOrder
import DBx1000.Silo.Knowledge
import DBx1000.TicToc.Serializable

/-!
# The order of the locks of a validation

With `_validation_no_wait` unset, `validate_silo` and `validate_tictoc` wait for the locks of
their write sets, which a bubble sort has put in the order of the primary keys. Rows of
different tables, or of one table in different warehouses, can have the same primary key; the
sort leaves them in the order in which the transaction has accessed them.

## Main result

The locks of all transactions are taken in one total order, and then no threads wait for each
other in a circle, if and only if the access orders of rows with the same key can be continued
to an order.
-/

namespace DBx1000

open Transition Relation LockOrder

variable {ρ V τ : Type*}

/-- A transaction writes two rows with the same primary key, in this order. -/
def Before (primaryKey : ρ → Nat) (writes : Set (List ρ)) (x y : ρ) : Prop :=
  ∃ rows ∈ writes, rows.Nodup ∧ [x, y].Sublist rows ∧ primaryKey x = primaryKey y

/-- The sort of the rows of a transaction, for an order that begins with the primary key. -/
theorem pairwise_sort {primaryKey : ρ → Nat} {writes : Set (List ρ)} {lt : ρ → ρ → Prop}
    (order : ∀ x y, primaryKey x < primaryKey y ∨
      primaryKey x = primaryKey y ∧ Before primaryKey writes x y → lt x y)
    {rows : List ρ} (mem : rows ∈ writes) (nodup : rows.Nodup) :
    (BubbleSort.sort (BubbleSort.byKey primaryKey) rows).Pairwise lt := by
  apply List.pairwise_iff_forall_sublist.mpr
  intro x y before
  apply order
  rcases BubbleSort.sort_before primaryKey before with less | ⟨same, before⟩
  · exact .inl less
  · exact .inr ⟨same, rows, mem, nodup, before, same⟩

/-- Whoever waits for a row of a sorted write set holds only rows that come before it. -/
theorem lt_of_held {α : Type*} (row : α → ρ) {lt : ρ → ρ → Prop} {held rest : List α} {a : α}
    (sorted : ((held ++ a :: rest).map row).Pairwise lt) {y : ρ} (mem : y ∈ held.map row) :
    lt y (row a) := by
  rw [List.map_append, List.map_cons] at sorted
  exact (List.pairwise_append.mp sorted).2.2 y mem (row a) List.mem_cons_self

/-! ### Silo -/

namespace Silo

/-- The rows of the write set, in the order of the accesses. -/
def writeRows (accesses : List (Access ρ V)) : List ρ :=
  (accesses.filter (·.type = .WR)).map (·.origRow)

theorem nodup_writeRows {accesses : List (Access ρ V)}
    (nodup : (accesses.map (·.origRow)).Nodup) : (writeRows accesses).Nodup :=
  nodup.sublist (List.filter_sublist.map _)

theorem map_writeSet (primaryKey : ρ → Nat) (accesses : List (Access ρ V)) :
    (writeSet primaryKey accesses).map (·.origRow) =
      BubbleSort.sort (BubbleSort.byKey primaryKey) (writeRows accesses) := by
  have same (a b : Access ρ V) : decide (primaryKey a.origRow > primaryKey b.origRow) =
      BubbleSort.byKey primaryKey a.origRow b.origRow := rfl
  exact BubbleSort.map_sort _ Access.origRow same _

/-- The row whose lock the next step needs: in `Row_silo::access` or in `lock`. -/
def SiloPc.awaits : SiloPc ρ V → Option ρ
  | .load _ row _ => some row
  | .lock _ _ (a :: _) => some a.origRow
  | _ => none

def SiloState.Waits (s : SiloState ρ V τ) (t : τ) (x : ρ) : Prop :=
  (s.pc t).awaits = some x ∧ (s.word x).lock = true

def SiloState.Holds (s : SiloState ρ V τ) (t : τ) (x : ρ) : Prop := x ∈ (s.pc t).held

/-- The transactions that come to their validation write certain lists of rows. -/
def Validates (writes : Set (List ρ)) (s : SiloState ρ V τ) : SiloLabel ρ V τ → Prop
  | .finish t => ∀ accesses, s.pc t = .running accesses → writeRows accesses ∈ writes
  | _ => True

/-- The rows are accessed once, and locked in the order `lt`. -/
def SiloPc.InOrder (lt : ρ → ρ → Prop) : SiloPc ρ V → Prop
  | .running accesses => (accesses.map (·.origRow)).Nodup
  | .load accesses row _ | .copy accesses row _ _ | .reload accesses row _ _ _ =>
    (accesses.map (·.origRow)).Nodup ∧ row ∉ accesses.map (·.origRow)
  | .preWrite v _ | .preRead v _ => (v.writeSet.map (·.origRow)).Pairwise lt
  | .lock v held rest =>
    (v.writeSet.map (·.origRow)).Pairwise lt ∧ v.writeSet = held ++ rest
  | .cas v held a rest _ | .check v held a rest =>
    (v.writeSet.map (·.origRow)).Pairwise lt ∧ v.writeSet = held ++ a :: rest
  | .unlock again _ | .clear again _ _ _ =>
    ∀ v, again = some v → (v.writeSet.map (·.origRow)).Pairwise lt
  | _ => True

section

variable {lt : ρ → ρ → Prop} {s s' : SiloState ρ V τ} {t : τ}

theorem inOrder_startLocking (preAbort : Bool) {v : Validation ρ V}
    (sorted : (v.writeSet.map (·.origRow)).Pairwise lt) :
    (startLocking preAbort v).InOrder lt := by
  cases preAbort with
  | false => exact ⟨sorted, rfl⟩
  | true => exact sorted

/-- At the locks, what is held comes before what is awaited. -/
theorem lt_of_awaits {p : SiloPc ρ V} (inOrder : p.InOrder lt) {x y : ρ} (awaits : p.awaits = some x)
    (held : y ∈ p.held) : lt y x := by
  cases p with
  | lock v locked rest =>
    obtain ⟨sorted, split⟩ := inOrder
    cases rest with
    | nil => cases awaits
    | cons a rest =>
      cases awaits
      rw [split] at sorted
      exact lt_of_held Access.origRow sorted held
  | load accesses row type => cases held
  | _ => cases awaits

variable [DecidableEq ρ] [DecidableEq τ]

theorem inOrder_next {preAbort noWait : Bool} (inOrder : (s.pc t).InOrder lt)
    (h : siloNext preAbort noWait s t = some s') :
    ∃ p : SiloPc ρ V, s'.pc = Function.update s.pc t p ∧ p.InOrder lt := by
  unfold siloNext at h
  split at h <;> rename_i pc <;> rw [pc] at inOrder
  · cases h
  · cases h
  · -- `load`
    split at h
    · cases h
    · cases h
      exact ⟨.copy .., rfl, inOrder⟩
  · -- `copy`
    cases h
    exact ⟨.reload .., rfl, inOrder⟩
  · -- `reload`, with the access at the end of the list
    split at h
    · cases h
      exact ⟨.load .., rfl, inOrder⟩
    · cases h
      refine ⟨.running _, rfl, ?_⟩
      change (List.map _ (_ ++ [_])).Nodup
      rw [List.map_append, List.nodup_append]
      refine ⟨inOrder.1, List.pairwise_singleton .., fun x hx y hy => ?_⟩
      rintro rfl
      rw [List.mem_singleton.mp hy] at hx
      exact inOrder.2 hx
  · -- `preWrite`, with all writes or the next one
    cases h
    exact ⟨.preRead .., rfl, inOrder⟩
  · split at h
    · cases h
      exact ⟨.unlock none [], rfl, nofun⟩
    · cases h
      exact ⟨.preWrite .., rfl, inOrder⟩
  · -- `preRead`, with all reads or the next one
    cases h
    exact ⟨.lock .., rfl, inOrder, rfl⟩
  · split at h
    · cases h
      exact ⟨.unlock none [], rfl, nofun⟩
    · cases h
      exact ⟨.preRead .., rfl, inOrder⟩
  · -- `lock`, with all rows held
    cases h
    exact ⟨.readValidate .., rfl, trivial⟩
  · -- `lock` on a row that is locked or free
    split at h
    · split at h
      · cases h
        exact ⟨.unlock (some _) _, rfl, fun v e => Option.some.inj e ▸ inOrder.1⟩
      · cases h
    · cases h
      exact ⟨.cas .., rfl, inOrder⟩
  · -- `cas`
    split at h
    · cases h
      exact ⟨.check .., rfl, inOrder⟩
    · split at h
      · cases h
        exact ⟨.unlock (some _) _, rfl, fun v e => Option.some.inj e ▸ inOrder.1⟩
      · cases h
        exact ⟨.lock .., rfl, inOrder⟩
  · -- `check`: one more row is held
    split at h
    · cases h
      exact ⟨.unlock none _, rfl, nofun⟩
    · cases h
      refine ⟨.lock .., rfl, inOrder.1, ?_⟩
      rw [inOrder.2, List.append_assoc, List.singleton_append]
  · -- `unlock`, before a retry or at the end
    cases h
    exact ⟨.idle, rfl, trivial⟩
  · cases h
    exact ⟨_, rfl, inOrder_startLocking preAbort (inOrder _ rfl)⟩
  · cases h
    exact ⟨.clear .., rfl, inOrder⟩
  · -- `clear`
    cases h
    exact ⟨.unlock .., rfl, inOrder⟩
  · -- `readValidate`, with all reads or the next one
    cases h
    exact ⟨.writeValidate .., rfl, trivial⟩
  · split at h
    · cases h
      exact ⟨.readValidate .., rfl, trivial⟩
    · cases h
      exact ⟨.unlock none _, rfl, nofun⟩
  · -- `writeValidate`
    cases h
    exact ⟨.write .., rfl, trivial⟩
  · split at h
    · cases h
      exact ⟨.writeValidate .., rfl, trivial⟩
    · cases h
      exact ⟨.unlock none _, rfl, nofun⟩
  · -- `write`, with the rows one after the other, and no lock is awaited any more
    cases h
    exact ⟨.idle, rfl, trivial⟩
  · cases h
    exact ⟨.verify .., rfl, trivial⟩
  · cases h
    exact ⟨.store .., rfl, trivial⟩
  · cases h
    exact ⟨.release .., rfl, trivial⟩
  · cases h
    exact ⟨.releaseStore .., rfl, trivial⟩
  · cases h
    exact ⟨.write .., rfl, trivial⟩

theorem inOrder_step {primaryKey : ρ → Nat} {preAbort noWait : Bool} {writes : Set (List ρ)}
    {l : SiloLabel ρ V τ} (sorts : ∀ rows ∈ writes, rows.Nodup →
      (BubbleSort.sort (BubbleSort.byKey primaryKey) rows).Pairwise lt)
    (inOrder : ∀ t, (s.pc t).InOrder lt) (validates : Validates writes s l)
    (h : siloStep primaryKey preAbort noWait s l = some s') :
    ∃ (t : τ) (p : SiloPc ρ V), s'.pc = Function.update s.pc t p ∧ p.InOrder lt := by
  cases l with
  | begin t =>
    rw [siloStep] at h
    split at h
    · cases h
      exact ⟨t, .running [], rfl, List.nodup_nil⟩
    · cases h
  | getRow t row type =>
    rw [siloStep] at h
    split at h
    · next accesses pc =>
      have nodup := inOrder t
      rw [pc] at nodup
      split at h
      · cases h
      · next new =>
        cases h
        exact ⟨t, .load .., rfl, nodup, new⟩
    · cases h
  | modify t rid data =>
    rw [siloStep] at h
    split at h
    · next accesses pc =>
      have nodup := inOrder t
      rw [pc] at nodup
      cases h
      refine ⟨t, .running _, rfl, ?_⟩
      dsimp only [SiloPc.InOrder]
      rw [map_origRow_modify]
      exact nodup
    · cases h
  | finish t =>
    rw [siloStep] at h
    split at h
    · next accesses pc =>
      have nodup := inOrder t
      rw [pc] at nodup
      cases h
      refine ⟨t, _, rfl, inOrder_startLocking preAbort ?_⟩
      rw [map_writeSet]
      exact sorts _ (validates accesses pc) (nodup_writeRows nodup)
    · cases h
  | rollback t =>
    rw [siloStep] at h
    split at h
    · cases h
      exact ⟨t, .idle, rfl, trivial⟩
    · cases h
  | next t =>
    obtain ⟨p, pc, next⟩ := inOrder_next (inOrder t) h
    exact ⟨t, p, pc, next⟩

end

end Silo

/-! ### TicToc -/

namespace TicToc

/-- The rows of the write set, in the order of the accesses. -/
def writeRows (accesses : List (Access ρ V)) : List ρ :=
  (accesses.filter (·.type = .WR)).map (·.origRow)

theorem nodup_writeRows {accesses : List (Access ρ V)}
    (nodup : (accesses.map (·.origRow)).Nodup) : (writeRows accesses).Nodup :=
  nodup.sublist (List.filter_sublist.map _)

theorem map_writeSet (primaryKey : ρ → Nat) (accesses : List (Access ρ V)) :
    (writeSet primaryKey accesses).map (·.origRow) =
      BubbleSort.sort (BubbleSort.byKey primaryKey) (writeRows accesses) := by
  have same (a b : Access ρ V) : decide (primaryKey a.origRow > primaryKey b.origRow) =
      BubbleSort.byKey primaryKey a.origRow b.origRow := rfl
  exact BubbleSort.map_sort _ Access.origRow same _

/-- The row whose lock the next step needs. -/
def TxnPc.awaits : TxnPc ρ V → Option ρ
  | .lock _ _ (a :: _) => some a.origRow
  | _ => none

def TxnState.Waits (s : TxnState ρ V τ) (t : τ) (x : ρ) : Prop :=
  (s.pc t).awaits = some x ∧ locked (s.word x) = true

def TxnState.Holds (s : TxnState ρ V τ) (t : τ) (x : ρ) : Prop := x ∈ (s.pc t).held

/-- The transactions that come to their validation write certain lists of rows. -/
def Validates (writes : Set (List ρ)) (s : TxnState ρ V τ) : TxnLabel ρ V τ → Prop
  | .finish t => ∀ accesses, s.pc t = .running accesses → writeRows accesses ∈ writes
  | _ => True

/-- The rows are accessed once, and locked in the order `lt`. -/
def TxnPc.InOrder (lt : ρ → ρ → Prop) : TxnPc ρ V → Prop
  | .running accesses => (accesses.map (·.origRow)).Nodup
  | .preWrite v _ | .preRead v _ | .backOff v _ => (v.writeSet.map (·.origRow)).Pairwise lt
  | .lock v held rest =>
    (v.writeSet.map (·.origRow)).Pairwise lt ∧ v.writeSet = held ++ rest
  | .check v held a rest =>
    (v.writeSet.map (·.origRow)).Pairwise lt ∧ v.writeSet = held ++ a :: rest
  | _ => True

section

variable {lt : ρ → ρ → Prop} {s s' : TxnState ρ V τ} {t : τ}

theorem inOrder_startLocking (preAbort : Bool) {v : Validation ρ V}
    (sorted : (v.writeSet.map (·.origRow)).Pairwise lt) :
    (startLocking preAbort v).InOrder lt := by
  cases preAbort with
  | false => exact ⟨sorted, rfl⟩
  | true => exact sorted

/-- At the locks, what is held comes before what is awaited. -/
theorem lt_of_awaits {p : TxnPc ρ V} (inOrder : p.InOrder lt) {x y : ρ} (awaits : p.awaits = some x)
    (held : y ∈ p.held) : lt y x := by
  cases p with
  | lock v locked rest =>
    obtain ⟨sorted, split⟩ := inOrder
    cases rest with
    | nil => cases awaits
    | cons a rest =>
      cases awaits
      rw [split] at sorted
      exact lt_of_held Access.origRow sorted held
  | _ => cases awaits

variable [DecidableEq ρ] [DecidableEq τ]

theorem inOrder_validate {preAbort noWait : Bool} (inOrder : (s.pc t).InOrder lt)
    (h : validate preAbort noWait s t = some s') :
    ∃ p : TxnPc ρ V, s'.pc = Function.update s.pc t p ∧ p.InOrder lt := by
  unfold validate at h
  split at h <;> rename_i pc <;> rw [pc] at inOrder
  · cases h
  · cases h
  · -- `preWrite`, with all writes or the next one
    cases h
    exact ⟨.preRead .., rfl, inOrder⟩
  · split at h
    · cases h
      exact ⟨.abort [], rfl, trivial⟩
    · cases h
      exact ⟨.preWrite .., rfl, inOrder⟩
  · -- `preRead`, with all reads or the next one
    cases h
    exact ⟨.lock .., rfl, inOrder, rfl⟩
  · dsimp only at h
    split at h
    · cases h
      exact ⟨.abort [], rfl, trivial⟩
    · cases h
      exact ⟨.preRead .., rfl, inOrder⟩
  · -- `lock`, with all rows held
    cases h
    exact ⟨.getRts .., rfl, trivial⟩
  · -- `lock` on a row that is locked or free
    dsimp only at h
    split at h
    · split at h
      · cases h
        exact ⟨.backOff .., rfl, inOrder.1⟩
      · cases h
    · cases h
      exact ⟨.check .., rfl, inOrder⟩
  · -- `check`: one more row is held
    split at h
    · cases h
      exact ⟨.abort _, rfl, trivial⟩
    · cases h
      refine ⟨.lock .., rfl, inOrder.1, ?_⟩
      rw [inOrder.2, List.append_assoc, List.singleton_append]
  · -- `backOff`, before a retry
    cases h
    exact ⟨_, rfl, inOrder_startLocking preAbort inOrder⟩
  · cases h
    exact ⟨.backOff .., rfl, inOrder⟩
  · -- `getRts`, when no lock is awaited any more
    cases h
    exact ⟨.renew .., rfl, trivial⟩
  · split at h
    · cases h
      exact ⟨.raise .., rfl, trivial⟩
    · cases h
      exact ⟨.getRts .., rfl, trivial⟩
  · cases h
    exact ⟨.getRts .., rfl, trivial⟩
  · -- `renew`
    cases h
    exact ⟨.commit .., rfl, trivial⟩
  · split at h
    · cases h
      refine ⟨_, rfl, ?_⟩
      split
      · trivial
      · trivial
    · cases h
      exact ⟨.renew .., rfl, trivial⟩
  · -- `commit`
    cases h
    exact ⟨.write .., rfl, trivial⟩
  · -- `write`
    cases h
    exact ⟨.idle, rfl, trivial⟩
  · cases h
    exact ⟨.release .., rfl, trivial⟩
  · cases h
    exact ⟨.write .., rfl, trivial⟩
  · -- `abort`
    cases h
    exact ⟨.idle, rfl, trivial⟩
  · cases h
    exact ⟨.abort _, rfl, trivial⟩

theorem inOrder_step {primaryKey : ρ → Nat} {preAbort noWait : Bool} {writes : Set (List ρ)}
    {l : TxnLabel ρ V τ} (sorts : ∀ rows ∈ writes, rows.Nodup →
      (BubbleSort.sort (BubbleSort.byKey primaryKey) rows).Pairwise lt)
    (inOrder : ∀ t, (s.pc t).InOrder lt) (validates : Validates writes s l)
    (h : txnStep primaryKey preAbort noWait s l = some s') :
    ∃ (t : τ) (p : TxnPc ρ V), s'.pc = Function.update s.pc t p ∧ p.InOrder lt := by
  cases l with
  | begin t =>
    rw [txnStep] at h
    split at h
    · cases h
      exact ⟨t, .running [], rfl, List.nodup_nil⟩
    · cases h
  | getRow t row type =>
    rw [txnStep] at h
    split at h
    · next accesses pc =>
      have nodup := inOrder t
      rw [pc] at nodup
      split at h
      · cases h
      · next free =>
        cases h
        refine ⟨t, .running _, rfl, ?_⟩
        change (List.map _ (_ ++ [_])).Nodup
        rw [List.map_append, List.nodup_append]
        refine ⟨nodup, List.pairwise_singleton .., fun x hx y hy => ?_⟩
        rintro rfl
        rw [List.mem_singleton.mp hy] at hx
        exact free (.inr hx)
    · cases h
  | modify t rid data =>
    rw [txnStep] at h
    split at h
    · next accesses pc =>
      have nodup := inOrder t
      rw [pc] at nodup
      cases h
      refine ⟨t, .running _, rfl, ?_⟩
      dsimp only [TxnPc.InOrder]
      rw [map_origRow_modify]
      exact nodup
    · cases h
  -- the write set is sorted before the first lock
  | finish t =>
    rw [txnStep] at h
    split at h
    · next accesses pc =>
      have nodup := inOrder t
      rw [pc] at nodup
      cases h
      refine ⟨t, _, rfl, inOrder_startLocking preAbort ?_⟩
      change ((writeSet primaryKey accesses).map (·.origRow)).Pairwise lt
      rw [map_writeSet]
      exact sorts _ (validates accesses pc) (nodup_writeRows nodup)
    · cases h
  | rollback t =>
    rw [txnStep] at h
    split at h
    · cases h
      exact ⟨t, .idle, rfl, trivial⟩
    · cases h
  | next t =>
    obtain ⟨p, pc, next⟩ := inOrder_validate (inOrder t) h
    exact ⟨t, p, pc, next⟩

end

end TicToc

/-! ### The order of the locks -/

section

variable [DecidableEq ρ] [DecidableEq τ] (primaryKey : ρ → Nat) (writes : Set (List ρ))

/-- All write sets are in one total order, whatever the order of the accesses to distinct rows,
and no threads wait for each other in a circle. -/
structure LockOrdered (init : ρ → V) (τ : Type*) [DecidableEq τ] : Prop where
  order : ∃ lt : ρ → ρ → Prop, IsStrictTotalOrder ρ lt ∧
    (∀ accesses : List (Silo.Access ρ V), (accesses.map (·.origRow)).Nodup →
      Silo.writeRows accesses ∈ writes →
        ((Silo.writeSet primaryKey accesses).map (·.origRow)).Pairwise lt) ∧
    ∀ accesses : List (TicToc.Access ρ V), (accesses.map (·.origRow)).Nodup →
      TicToc.writeRows accesses ∈ writes →
        ((TicToc.writeSet primaryKey accesses).map (·.origRow)).Pairwise lt
  silo : ∀ preAbort s, (Silo.siloMachine primaryKey preAbort false init τ).Reachable
    (Silo.Validates writes) s → ∀ t, ¬ TransGen (WaitsFor s.Waits s.Holds) t t
  tictoc : ∀ preAbort s, (TicToc.txnMachine primaryKey preAbort false init τ).Reachable
    (TicToc.Validates writes) s → ∀ t, ¬ TransGen (WaitsFor s.Waits s.Holds) t t

variable {primaryKey writes}

theorem silo_no_cycle {lt : ρ → ρ → Prop} (strict : IsStrictTotalOrder ρ lt)
    (sorts : ∀ rows ∈ writes, rows.Nodup →
      (BubbleSort.sort (BubbleSort.byKey primaryKey) rows).Pairwise lt)
    {init : ρ → V} {preAbort noWait : Bool} {s : Silo.SiloState ρ V τ}
    (reached : (Silo.siloMachine primaryKey preAbort noWait init τ).Reachable
      (Silo.Validates writes) s) (t : τ) : ¬ TransGen (WaitsFor s.Waits s.Holds) t t := by
  have inOrder : ∀ t, (s.pc t).InOrder lt := by
    refine reached.invariant (I := fun s => ∀ t, (s.pc t).InOrder lt) ?_ ?_
    · rintro s rfl t
      trivial
    · intro s l s' inOrder validates h u
      obtain ⟨t, p, pc, next⟩ := Silo.inOrder_step sorts inOrder validates h
      rw [pc]
      by_cases e : u = t
      · subst e
        rw [Function.update_self]
        exact next
      · rw [Function.update_of_ne e]
        exact inOrder u
  apply no_cycle strict.irrefl strict.trans
  · rintro t x y ⟨first, -⟩ ⟨second, -⟩
    exact Option.some.inj (first.symm.trans second)
  · rintro t x y ⟨awaits, -⟩ held
    exact Silo.lt_of_awaits (inOrder t) awaits held

theorem tictoc_no_cycle {lt : ρ → ρ → Prop} (strict : IsStrictTotalOrder ρ lt)
    (sorts : ∀ rows ∈ writes, rows.Nodup →
      (BubbleSort.sort (BubbleSort.byKey primaryKey) rows).Pairwise lt)
    {init : ρ → V} {preAbort noWait : Bool} {s : TicToc.TxnState ρ V τ}
    (reached : (TicToc.txnMachine primaryKey preAbort noWait init τ).Reachable
      (TicToc.Validates writes) s) (t : τ) : ¬ TransGen (WaitsFor s.Waits s.Holds) t t := by
  have inOrder : ∀ t, (s.pc t).InOrder lt := by
    refine reached.invariant (I := fun s => ∀ t, (s.pc t).InOrder lt) ?_ ?_
    · rintro s rfl t
      trivial
    · intro s l s' inOrder validates h u
      obtain ⟨t, p, pc, next⟩ := TicToc.inOrder_step sorts inOrder validates h
      rw [pc]
      by_cases e : u = t
      · subst e
        rw [Function.update_self]
        exact next
      · rw [Function.update_of_ne e]
        exact inOrder u
  apply no_cycle strict.irrefl strict.trans
  · rintro t x y ⟨first, -⟩ ⟨second, -⟩
    exact Option.some.inj (first.symm.trans second)
  · rintro t x y ⟨awaits, -⟩ held
    exact TicToc.lt_of_awaits (inOrder t) awaits held

/-- A transaction that writes certain rows. -/
def writesAll (init : ρ → V) (rows : List ρ) : List (Silo.Access ρ V) :=
  rows.map fun x => ⟨.WR, x, 0, init x, init x⟩

omit [DecidableEq ρ] in
theorem map_writesAll (init : ρ → V) (rows : List ρ) :
    (writesAll init rows).map (·.origRow) = rows := by
  simp [writesAll, Function.comp_def]

omit [DecidableEq ρ] in
theorem writeRows_writesAll (init : ρ → V) (rows : List ρ) :
    Silo.writeRows (writesAll init rows) = rows := by
  simp [Silo.writeRows, writesAll, List.filter_map, Function.comp_def]

/-- **The locks are taken in one order if and only if** the orders in which the transactions
access rows with the same primary key do not lead in a circle. -/
theorem lock_ordered (primaryKey : ρ → Nat) (writes : Set (List ρ)) (init : ρ → V) :
    LockOrdered primaryKey writes init τ ↔ ∀ x, ¬ TransGen (Before primaryKey writes) x x := by
  constructor
  · rintro ⟨⟨lt, strict, ordered, -⟩, -, -⟩ x cycle
    -- rows are taken in the order in which the bubble sort leaves them
    have less (x y : ρ) (before : Before primaryKey writes x y) : lt x y := by
      obtain ⟨rows, mem, nodup, before, same⟩ := before
      have sorted := ordered (writesAll init rows) (by rwa [map_writesAll])
        (by rwa [writeRows_writesAll])
      rw [Silo.map_writeSet, writeRows_writesAll] at sorted
      exact List.pairwise_iff_forall_sublist.mp sorted (BubbleSort.before_sort primaryKey before same)
    -- the order is transitive, so the circle would be one step of it
    have trans : IsTrans ρ lt := ⟨strict.trans⟩
    exact strict.irrefl x (transGen_minimal less x x cycle)
  · -- without a circle all write sets can be put into one order
    intro acyclic
    obtain ⟨lt, strict, order⟩ := exists_order primaryKey acyclic
    have sorts (rows : List ρ) (mem : rows ∈ writes) (nodup : rows.Nodup) :
        (BubbleSort.sort (BubbleSort.byKey primaryKey) rows).Pairwise lt :=
      pairwise_sort order mem nodup
    refine ⟨⟨lt, strict, fun accesses nodup mem => ?_, fun accesses nodup mem => ?_⟩, ?_, ?_⟩
    · rw [Silo.map_writeSet]
      exact sorts _ mem (Silo.nodup_writeRows nodup)
    · rw [TicToc.map_writeSet]
      exact sorts _ mem (TicToc.nodup_writeRows nodup)
    · exact fun preAbort s reached => silo_no_cycle strict sorts reached
    · exact fun preAbort s reached => tictoc_no_cycle strict sorts reached

/-- Two threads that write two rows with the same primary key, in the two orders. -/
theorem lock_ordered_crossed :
    (∃ s : Silo.SiloState Bool Nat Bool,
      (Silo.siloMachine (fun _ => 3) false false (fun _ => 0) Bool).Reachable Free s ∧
        TransGen (WaitsFor s.Waits s.Holds) false false) ∧
    ∃ s : TicToc.TxnState Bool Nat Bool,
      (TicToc.txnMachine (fun _ => 3) false false (fun _ => 0) Bool).Reachable Free s ∧
        TransGen (WaitsFor s.Waits s.Holds) false false := by
  constructor
  · -- two rows with one primary key, taken in both orders
    obtain ⟨s, path, e⟩ := Machine.exists_along
      (Silo.siloMachine (fun _ : Bool => 3) false false (fun _ => 0) Bool) Free
      ⟨fun _ => ⟨0, false⟩, fun _ => 0, fun _ => 0, fun _ => .idle, 0, [], false⟩
      (([false, true].flatMap fun t => [.begin t, .getRow t t .WR, .next t, .next t, .next t,
        .getRow t (!t) .WR, .next t, .next t, .next t, .finish t]) ++
        [false, true].flatMap fun t => [.next t, .next t, .next t])
      (fun s => [false, true].map fun t => ((s.pc t).awaits, (s.pc t).held, (s.word t).lock))
      [(some true, [false], true), (some false, [true], true)] (by decide)
    simp only [List.map_cons, List.map_nil, List.cons.injEq, Prod.mk.injEq, and_true] at e
    obtain ⟨⟨awaits, held, locked⟩, awaits', held', locked'⟩ := e
    refine ⟨s, ⟨_, _, rfl, path⟩, .tail (.single ⟨true, ⟨awaits, locked'⟩, ?_⟩)
      ⟨false, ⟨awaits', locked⟩, ?_⟩⟩
    · change true ∈ (s.pc true).held
      simp [held']
    · change false ∈ (s.pc false).held
      simp [held]
  · obtain ⟨s, path, e⟩ := Machine.exists_along
      (TicToc.txnMachine (fun _ : Bool => 3) false false (fun _ => 0) Bool) Free
      ⟨fun _ => 0, fun _ => 0, fun _ => .idle, []⟩
      (([false, true].flatMap fun t =>
        [.begin t, .getRow t t .WR, .getRow t (!t) .WR, .finish t]) ++
        [false, true].flatMap fun t => [.next t, .next t])
      (fun s => [false, true].map fun t =>
        ((s.pc t).awaits, (s.pc t).held, TicToc.locked (s.word t)))
      [(some true, [false], true), (some false, [true], true)] (by decide)
    simp only [List.map_cons, List.map_nil, List.cons.injEq, Prod.mk.injEq, and_true] at e
    obtain ⟨⟨awaits, held, locked⟩, awaits', held', locked'⟩ := e
    refine ⟨s, ⟨_, _, rfl, path⟩, .tail (.single ⟨true, ⟨awaits, locked'⟩, ?_⟩)
      ⟨false, ⟨awaits', locked⟩, ?_⟩⟩
    · change true ∈ (s.pc true).held
      simp [held']
    · change false ∈ (s.pc false).held
      simp [held]

end

end DBx1000
