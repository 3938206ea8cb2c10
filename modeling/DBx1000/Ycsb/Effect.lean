import DBx1000.Hekaton.Calls
import DBx1000.Mvcc.Reservation
import DBx1000.Ycsb.Transaction

/-!
# The effect of a YCSB transaction

`run_txn` takes the data of the row that it writes from `row`, the `row_t` that the index leads
to, and not from `row_local`, which `get_row` gives. So the write changes what others see before
the transaction commits, and the commit puts a copy in its place that was made before the write.

## Main result

A transaction takes effect by its commit, and only by it, if and only if its writes do not
matter: the field is zero already, or the `row_t` of the index is the one of the pre-write, or,
for an abort, of no version.

## Proof strategy

The accesses up to the end or the abort are performed one by one. Under SILO, TICTOC and OCC a
row is what it was but for the field, under MVCC and HEKATON the reserved `row_t` has a copy of
the latest version. Then the rows are returned, in an order that does not matter.
-/

namespace DBx1000.Ycsb

/-! ### Rows -/

/-- The field that a transaction writes is zero. -/
def Clean (data : Data) : Prop := ∀ i < 8, data i = 0

theorem writeField_eq_iff {data : Data} : writeField 0 data = data ↔ Clean data := by
  constructor
  · intro same i lt
    have at_ := congrFun same i
    rw [writeField, if_pos ⟨by omega, by omega⟩] at at_
    exact at_.symm
  · intro clean
    funext i
    rw [writeField]
    split
    · next lt => exact (clean i (by omega)).symm
    · rfl

namespace Row

theorem store_store (r : Row) (b : Nat) (d e : Data) : (r.store b d).store b e = r.store b e := by
  unfold store
  simp

theorem prewrite_spec {r r' : Row} {b : Nat} {live : List Nat} (ok : r.prewrite b live = some r') :
    r.reserved = none ∧ r'.memory = Function.update r.memory b r.data ∧ r'.latest = r.latest ∧
      r'.live = live ∧ r'.reserved = some b := by
  unfold prewrite at ok
  split at ok
  · next granted =>
    cases ok
    exact ⟨granted.1, rfl, rfl, rfl, rfl⟩
  · cases ok

theorem prewrite_eq_some {r r' : Row} {b : Nat} (free : r.reserved = none)
    (memory : r'.memory = Function.update r.memory b r.data) (latest : r'.latest = r.latest)
    (reserved : r'.reserved = some b) : r.prewrite b r'.live = some r' := by
  have granted : r.reserved = none ∧ r.latest ∈ r'.live ∧ b ∉ r'.live :=
    ⟨free, latest ▸ r'.latest_live, r'.reserved_not_live b reserved⟩
  rw [prewrite, dif_pos granted]
  apply congrArg some
  ext1
  · exact memory.symm
  · exact latest.symm
  · rfl
  · exact reserved.symm

theorem commit_spec {r : Row} {b : Nat} (pending : r.reserved = some b) :
    r.commit.latest = b ∧ r.commit.memory = r.memory ∧ r.commit.reserved = none := by
  unfold commit
  split
  · next none =>
    rw [none] at pending
    cases pending
  · next c is =>
    rw [is] at pending
    exact ⟨Option.some.inj pending, rfl, rfl⟩

theorem commit_of_none {r : Row} (none : r.reserved = none) : r.commit = r := by
  unfold commit
  split
  · rfl
  · next is =>
    rw [is] at none
    cases none

theorem commit_commit (r : Row) : r.commit.commit = r.commit := by
  cases is : r.reserved with
  | none => rw [commit_of_none is, commit_of_none is]
  | some b => exact commit_of_none (commit_spec is).2.2

end Row

/-! ### The rows of the row managers -/

section Managers

/-- The versions of a row under MVCC. -/
def mvccLive {τ : Type*} (r : Mvcc.RowMvcc Data τ) : List Nat :=
  r.row.toList ++ (r.writeHistory.filter (·.valid)).filterMap (·.row)

theorem mem_mvccLive {τ : Type*} {r : Mvcc.RowMvcc Data τ} {b : Nat} :
    b ∈ mvccLive r ↔ ∃ v, r.Current v (some b) := by
  rw [mvccLive, List.mem_append, Option.mem_toList, List.mem_filterMap]
  constructor
  · rintro (base | ⟨e, mem, row⟩)
    · exact ⟨_, .inl ⟨rfl, base.symm⟩⟩
    · obtain ⟨mem, valid⟩ := List.mem_filter.mp mem
      obtain ⟨i, at_⟩ := Mvcc.RowMvcc.exists_entry mem
      exact ⟨e.ts, .inr ⟨i, at_ ▸ valid, by rw [at_], at_ ▸ row⟩⟩
  · rintro ⟨v, ⟨-, base⟩ | ⟨i, valid, -, row⟩⟩
    · exact .inl base.symm
    · have mem := Mvcc.RowMvcc.entry_mem (Mvcc.RowMvcc.lt_of_valid valid)
      exact .inr ⟨_, List.mem_filter.mpr ⟨mem, valid⟩, row⟩

/-- What a row under MVCC is for a transaction. -/
def ofMvcc {τ : Type*} (r : Mvcc.RowMvcc Data τ) (h : r.History) : Row where
  memory := r.memory
  latest := r.latestRow.get (Option.isSome_iff_ne_none.mpr h.latest_ne)
  live := mvccLive r
  reserved := if r.existsPrewrite then r.resRow else none
  latest_live := by
    apply mem_mvccLive.mpr
    exact ⟨r.latestWts, Option.some_get _ ▸ h.latest⟩
  reserved_not_live := by
    intro b is mem
    split at is
    · next pre =>
      obtain ⟨v, current⟩ := mem_mvccLive.mp mem
      exact h.current_ne pre current is.symm
    · cases is

/-- The pre-write of a row under MVCC is that of the model. -/
theorem ofMvcc_prewrite {τ : Type*} (debug : Bool) (gThreadCnt ts : Nat) (minTs : WithTop Nat)
    {r : Mvcc.RowMvcc Data τ} (h : r.History) (free : r.existsPrewrite = false)
    (newer : r.latestWts < ts) :
    ∃ (r' : Mvcc.RowMvcc Data τ) (h' : r'.History) (b : Nat),
      r.prewrite debug gThreadCnt minTs ts = some r' ∧ r'.resRow = some b ∧
        (ofMvcc r h).prewrite b (ofMvcc r' h').live = some (ofMvcc r' h') := by
  obtain ⟨q, b, a, done, history, keeps, pre, -, row, latest, -⟩ :=
    h.prewrite debug gThreadCnt minTs free newer
  refine ⟨_, history.setMemory _, b, done, row, ?_⟩
  have old : (ofMvcc r h).latest = a := by simp [ofMvcc, latest]
  apply Row.prewrite_eq_some
  · simp [ofMvcc, free]
  · rw [Row.data, old]
    rfl
  · rw [old]
    simp [ofMvcc, keeps.latestRow, latest]
  · simp only [ofMvcc, pre]
    exact row

/-- The commit of a pre-write, before it wakes others. -/
theorem ofMvcc_commit {τ : Type*} {ts : Nat} {r : Mvcc.RowMvcc Data τ} (h : r.History)
    (pre : r.existsPrewrite = true) (h' : (r.commit ts r.resRow).History) :
    (ofMvcc (r.commit ts r.resRow) h').data = (ofMvcc r h).commit.data := by
  obtain ⟨b, row⟩ := Option.ne_none_iff_exists'.mp (h.pending pre).2.2.1
  have pending : (ofMvcc r h).reserved = some b := by simp [ofMvcc, pre, row]
  obtain ⟨latest, memory, -⟩ := Row.commit_spec pending
  rw [Row.data, Row.data, latest, memory]
  simp [ofMvcc, Mvcc.RowMvcc.commit, Mvcc.RowMvcc.modifyEntry, row]

open Hekaton.RowHekaton in
/-- What a row under HEKATON with certain versions is for a transaction. -/
def ofHekaton {r : Hekaton.RowHekaton} {vs : List Hekaton.WriteHisEntry} (h : Versions r vs)
    (memory : Nat → Data) : Row where
  memory := memory
  latest := r.latest.row.get (Option.isSome_iff_ne_none.mpr (h.rows _ h.latest_mem))
  live := vs.filterMap (·.row)
  reserved := if r.existsPrewrite then r.behind.row else none
  latest_live := by
    apply List.mem_filterMap.mpr
    exact ⟨r.latest, h.latest_mem, (Option.some_get _).symm⟩
  reserved_not_live := by
    intro b is mem
    split at is
    · next pre =>
      obtain ⟨e, he, row⟩ := List.mem_filterMap.mp mem
      exact h.behind_ne (h.room pre) he (row.trans is.symm)
    · cases is

open Hekaton.RowHekaton Hekaton.RowHekaton.Versions in
/-- The pre-write of a row under HEKATON is that of the model. -/
theorem ofHekaton_prewrite {gThreadCnt txnId ts : Nat} {minTs : WithTop Nat}
    {r r' : Hekaton.RowHekaton} {row : Option Nat} {vs : List Hekaton.WriteHisEntry}
    (h : Versions r vs) (memory : Nat → Data)
    (ok : r.prewrite gThreadCnt minTs txnId ts = some (r', row)) :
    ∃ (ws : List Hekaton.WriteHisEntry) (h' : Versions r' ws) (b : Nat), row = some b ∧
      (ofHekaton h memory).prewrite b (ofHekaton h' memory).live =
        some (ofHekaton h' (Function.update memory b (ofHekaton h memory).data)) := by
  obtain ⟨free, pre, ⟨-, -, behind, -⟩, ws, h', suffix⟩ := h.prewrite ok
  obtain ⟨b, at_⟩ := Option.ne_none_iff_exists'.mp (h'.pending pre)
  refine ⟨ws, h', b, behind.symm.trans at_, ?_⟩
  change (ofHekaton h memory).prewrite b (ofHekaton h'
    (Function.update memory b (ofHekaton h memory).data)).live = _
  apply Row.prewrite_eq_some
  · simp [ofHekaton, free]
  · rfl
  · -- the versions that are left end with the same one
    have same := (latest_of_suffix h.toLayout h'.toLayout suffix).2
    simp only [ofHekaton, same]
  · simp only [ofHekaton, pre]
    exact at_

open Hekaton.RowHekaton Hekaton.RowHekaton.Versions in
/-- The commit of a pre-write. -/
theorem ofHekaton_commit {commitTs : Nat} {r : Hekaton.RowHekaton}
    {vs ws : List Hekaton.WriteHisEntry} (h : Versions r vs) (memory : Nat → Data)
    (pre : r.existsPrewrite = true) (h' : Versions (r.postProcess commitTs .RCOK) ws)
    (kept : ids ws = ids vs ++ [(commitTs, r.behind.row)]) :
    (ofHekaton h' memory).data = (ofHekaton h memory).commit.data := by
  obtain ⟨b, at_⟩ := Option.ne_none_iff_exists'.mp (h.pending pre)
  have pending : (ofHekaton h memory).reserved = some b := by simp [ofHekaton, pre, at_]
  obtain ⟨latest, same, -⟩ := Row.commit_spec pending
  have last := congrArg (Option.map fun e : Hekaton.WriteHisEntry => (e.begin, e.row)) h'.getLast
  rw [← List.getLast?_map] at last
  change (ids ws).getLast? = _ at last
  rw [kept, List.getLast?_concat] at last
  have row : (r.postProcess commitTs .RCOK).latest.row = some b :=
    (Prod.mk.inj (Option.some.inj last)).2.symm.trans at_
  rw [Row.data, Row.data, latest, same]
  simp [ofHekaton, row]

end Managers

/-! ### The accesses -/

/-- An access that the row manager does not abort, with its answer. -/
structure Grant (ρ : Type*) where
  row : ρ
  type : AccessType
  buffer : Nat
  live : List Nat

section

variable {ρ : Type*} [DecidableEq ρ]

omit [DecidableEq ρ] in
/-- The accesses before the end of the loops or the first abort. -/
def reached : List (ρ × AccessType) → List Answer → List (Grant ρ)
  | (x, type) :: rest, .grant b live :: answers => ⟨x, type, b, live⟩ :: reached rest answers
  | _, _ => []

namespace TxnState

/-- One turn of the loops. -/
def perform (scheme : Scheme) (s : TxnState ρ) (g : Grant ρ) : Option (TxnState ρ) :=
  (s.getRow scheme g.row g.type g.buffer g.live).bind fun s => s.compute g.row g.type

def performAll (scheme : Scheme) (s : TxnState ρ) (gs : List (Grant ρ)) : Option (TxnState ρ) :=
  gs.foldlM (fun s g => s.perform scheme g) s

end TxnState

/-- No access aborts and the validation does not fail. -/
def Commits (scheme : Scheme) (valid : Bool) (visits : List (ρ × AccessType))
    (answers : List Answer) : Prop :=
  (reached visits answers).length = visits.length ∧ (scheme = .MVCC ∨ valid = true)

variable {scheme : Scheme} {primaryKey : ρ → Nat} {valid : Bool} {s s' : TxnState ρ}

/-- The loops perform the accesses one by one, and then the transaction finishes. -/
theorem runLoop_spec {requestCnt : Nat} (several : 1 < requestCnt) {rc : RC} {rows : ρ → Row}
    (visits : List (ρ × AccessType)) (answers : List Answer)
    (run : runLoop scheme primaryKey requestCnt valid visits answers s = some (rc, rows)) :
    ∃ s', s.performAll scheme (reached visits answers) = some s' ∧
      (rc, rows) = finish scheme primaryKey valid
        (if (reached visits answers).length = visits.length then .RCOK else .Abort) s' := by
  induction visits generalizing answers s with
  | nil =>
    rw [runLoop] at run
    exact ⟨s, by cases answers <;> rfl, (Option.some.inj run).symm⟩
  | cons visit visits ih =>
    obtain ⟨x, type⟩ := visit
    match answers with
    | [] => cases run
    | .abort :: answers =>
      rw [runLoop] at run
      split at run
      · cases run
      · exact ⟨s, rfl, (Option.some.inj run).symm⟩
    | .grant b live :: answers =>
      rw [runLoop] at run
      obtain ⟨s₁, granted, run⟩ := Option.bind_eq_some_iff.mp run
      rw [if_pos several] at run
      obtain ⟨s₂, computed, run⟩ := Option.bind_eq_some_iff.mp run
      obtain ⟨s', rest, finished⟩ := ih answers run
      refine ⟨s', ?_, ?_⟩
      · rw [reached, TxnState.performAll, List.foldlM_cons]
        have first : s.perform scheme ⟨x, type, b, live⟩ = some s₂ := by
          rw [TxnState.perform, granted, Option.bind_some, computed]
        rw [first]
        exact rest
      · rw [finished]
        simp [reached]

/-! ### What the accesses do -/

namespace TxnState

theorem perform_copies {g : Grant ρ} (copies : scheme.copies = true)
    (ok : s.perform scheme g = some s') :
    s'.accesses = s.accesses ++ [⟨g.type, g.row, .copy ((s.rows g.row).memory 0)⟩] ∧
      s'.rows = if g.type = .WR then
        Function.update s.rows g.row
          ((s.rows g.row).store 0 (writeField 0 ((s.rows g.row).memory 0)))
      else s.rows := by
  rw [perform, getRow, if_pos copies, Option.bind_some] at ok
  cases type : g.type with
  | RD | SCAN =>
    rw [type, compute] at ok
    cases ok
    exact ⟨rfl, rfl⟩
  | WR =>
    rw [type, compute] at ok
    cases ok
    exact ⟨rfl, rfl⟩
  | XP =>
    rw [type, compute] at ok
    cases ok

theorem perform_versions {g : Grant ρ} (versions : scheme.copies = false)
    (ok : s.perform scheme g = some s') :
    s'.accesses = s.accesses ++ [⟨g.type, g.row, .version g.buffer⟩] ∧
      (g.type = .RD ∧ s'.rows = s.rows ∨
        g.type ≠ .RD ∧ ∃ r, (s.rows g.row).prewrite g.buffer g.live = some r ∧
          s'.rows = Function.update s.rows g.row
            (if g.type = .WR then r.store 0 (writeField 0 (r.memory 0)) else r)) := by
  rw [perform, getRow, if_neg (by rw [versions]; exact Bool.false_ne_true)] at ok
  split at ok
  · next read =>
    -- a read gets a version and changes nothing
    split at ok
    · rw [Option.bind_some, read, compute] at ok
      cases ok
      exact ⟨by rw [read], .inl ⟨read, rfl⟩⟩
    · cases ok
  · next write =>
    -- a write or a scan is a pre-write, which reserves a version
    cases granted : (s.rows g.row).prewrite g.buffer g.live with
    | none =>
      rw [granted] at ok
      cases ok
    | some r =>
      rw [granted, Option.map_some, Option.bind_some] at ok
      cases type : g.type with
      | RD => exact absurd type write
      | XP =>
        rw [type, compute] at ok
        cases ok
      | SCAN =>
        rw [type, compute] at ok
        cases ok
        exact ⟨rfl, .inr ⟨(fun h => by cases h), r, rfl, rfl⟩⟩
      | WR =>
        rw [type, compute] at ok
        cases ok
        -- `row->set_value` writes the data of the row, which is its version 0
        refine ⟨rfl, .inr ⟨(fun h => by cases h), r, rfl, ?_⟩⟩
        simp

/-- What every access preserves holds after all of them. -/
theorem performAll_induct {I : List (Grant ρ) → TxnState ρ → Prop} {gs : List (Grant ρ)}
    (step : ∀ done g s s', done ++ [g] <+: gs → I done s → s.perform scheme g = some s' →
      I (done ++ [g]) s')
    (start : I [] s) (all : s.performAll scheme gs = some s') : I gs s' := by
  have general (rest done : List (Grant ρ)) (s : TxnState ρ) (split : done ++ rest = gs)
      (inv : I done s) (all : s.performAll scheme rest = some s') : I gs s' := by
    induction rest generalizing done s with
    | nil =>
      rw [List.append_nil] at split
      cases all
      exact split ▸ inv
    | cons g rest ih =>
      rw [performAll, List.foldlM_cons] at all
      obtain ⟨s₁, first, rest_⟩ := Option.bind_eq_some_iff.mp all
      have split : (done ++ [g]) ++ rest = gs := by rw [← split]; simp
      apply ih (done ++ [g]) s₁ split
      · exact step done g s s₁ ⟨rest, split⟩ inv first
      · exact rest_
  exact general gs [] s rfl start all

end TxnState

/-- A row that SILO, TICTOC or OCC has copied is written in place. -/
structure Copied (rows : ρ → Row) (gs : List (Grant ρ)) (s : TxnState ρ) : Prop where
  written : ∀ g ∈ gs, g.type = .WR →
    s.rows g.row = (rows g.row).store 0 (writeField 0 ((rows g.row).memory 0))
  kept : ∀ x, (∀ g ∈ gs, g.row = x → g.type ≠ .WR) → s.rows x = rows x
  access : ∀ g ∈ gs, ∃ a ∈ s.accesses, a.origRow = g.row ∧ a.type = g.type
  data : ∀ a ∈ s.accesses, a.type = .WR → a.data = .copy ((rows a.origRow).memory 0)

theorem Copied.step {rows : ρ → Row} {gs : List (Grant ρ)} {g : Grant ρ}
    (inv : Copied rows gs s) (copies : scheme.copies = true)
    (new : g.type = .WR → ∀ h ∈ gs, h.row = g.row → h.type ≠ .WR)
    (ok : s.perform scheme g = some s') : Copied rows (gs ++ [g]) s' := by
  obtain ⟨accesses, rows'⟩ := TxnState.perform_copies copies ok
  constructor
  case written =>
    intro h hh write
    rw [rows']
    rcases List.mem_append.mp hh with hh | hh
    · have old := inv.written h hh write
      split
      · next write' =>
        -- a row is written by one access only
        have ne : h.row ≠ g.row := fun same => new write' h hh same write
        rw [Function.update_of_ne ne]
        exact old
      · exact old
    · obtain rfl := List.mem_singleton.mp hh
      rw [if_pos write, Function.update_self, inv.kept _ (new write)]
  case kept =>
    intro x none
    have old := inv.kept x fun h hh => none h (List.mem_append_left _ hh)
    rw [rows']
    split
    · next write =>
      have ne : x ≠ g.row := fun same =>
        none g (List.mem_append_right _ (List.mem_singleton_self g)) same.symm write
      rw [Function.update_of_ne ne]
      exact old
    · exact old
  case access =>
    intro h hh
    rw [accesses]
    rcases List.mem_append.mp hh with hh | hh
    · obtain ⟨a, ha, same⟩ := inv.access h hh
      exact ⟨a, List.mem_append_left _ ha, same⟩
    · obtain rfl := List.mem_singleton.mp hh
      exact ⟨_, List.mem_append_right _ (List.mem_singleton_self _), rfl, rfl⟩
  case data =>
    intro a ha write
    rw [accesses] at ha
    rcases List.mem_append.mp ha with ha | ha
    · exact inv.data a ha write
    · obtain rfl := List.mem_singleton.mp ha
      -- the copy is taken before the write
      exact congrArg (fun r : Row => Local.copy (r.memory 0)) (inv.kept _ (new write))

/-- The memory of a row after a pre-write, and after the write to the `row_t` of the index. -/
def Grant.memory (g : Grant ρ) (r : Row) : Nat → Data :=
  let memory := Function.update r.memory g.buffer r.data
  if g.type = .WR then Function.update memory 0 (writeField 0 (memory 0)) else memory

/-- A row of which MVCC or HEKATON has reserved a version. -/
structure Prewritten (rows : ρ → Row) (gs : List (Grant ρ)) (s : TxnState ρ) : Prop where
  latest : ∀ x, (s.rows x).latest = (rows x).latest
  kept : ∀ x, (∀ g ∈ gs, g.row = x → g.type = .RD) → s.rows x = rows x
  reserved : ∀ g ∈ gs, g.type ≠ .RD → (s.rows g.row).reserved = some g.buffer ∧
    (s.rows g.row).live = g.live ∧ (s.rows g.row).memory = g.memory (rows g.row)
  access : ∀ g ∈ gs, ∃ a ∈ s.accesses, a.origRow = g.row ∧ a.type = g.type

theorem Prewritten.step {rows : ρ → Row} {gs : List (Grant ρ)} {g : Grant ρ}
    (inv : Prewritten rows gs s) (versions : scheme.copies = false)
    (ok : s.perform scheme g = some s') : Prewritten rows (gs ++ [g]) s' := by
  obtain ⟨accesses, read | write⟩ := TxnState.perform_versions versions ok
  all_goals
    have access : ∀ h ∈ gs ++ [g], ∃ a ∈ s'.accesses, a.origRow = h.row ∧ a.type = h.type := by
      intro h hh
      rw [accesses]
      rcases List.mem_append.mp hh with hh | hh
      · obtain ⟨a, ha, same⟩ := inv.access h hh
        exact ⟨a, List.mem_append_left _ ha, same⟩
      · obtain rfl := List.mem_singleton.mp hh
        exact ⟨_, List.mem_append_right _ (List.mem_singleton_self _), rfl, rfl⟩
  · obtain ⟨read, rows'⟩ := read
    refine ⟨fun x => ?_, fun x none => ?_, fun h hh write => ?_, access⟩
    · rw [rows']
      exact inv.latest x
    · rw [rows']
      exact inv.kept x fun h hh => none h (List.mem_append_left _ hh)
    · rw [rows']
      rcases List.mem_append.mp hh with hh | hh
      · exact inv.reserved h hh write
      · obtain rfl := List.mem_singleton.mp hh
        exact absurd read write
  · obtain ⟨write, r, granted, rows'⟩ := write
    obtain ⟨free, memory, latest, live, reserved⟩ := Row.prewrite_spec granted
    -- a row that has no pre-write was at most read before
    have reads : ∀ h ∈ gs, h.row = g.row → h.type = .RD := by
      intro h hh same
      by_contra write
      have := (inv.reserved h hh write).1
      rw [same, free] at this
      cases this
    have before := inv.kept g.row reads
    refine ⟨fun x => ?_, fun x none => ?_, fun h hh write' => ?_, access⟩
    · rw [rows']
      by_cases same : x = g.row
      · subst same
        -- a write to the data of the row does not make another version the latest
        rw [Function.update_self, ← inv.latest g.row, ← latest]
        split <;> rfl
      · rw [Function.update_of_ne same]
        exact inv.latest x
    · have ne : x ≠ g.row := fun same =>
        write (none g (List.mem_append_right _ (List.mem_singleton_self g)) same.symm)
      rw [rows', Function.update_of_ne ne]
      exact inv.kept x fun h hh => none h (List.mem_append_left _ hh)
    · rw [rows']
      rcases List.mem_append.mp hh with hh | hh
      · -- a row with a pre-write takes no second one
        have ne : h.row ≠ g.row := fun same => write' (reads h hh same)
        rw [Function.update_of_ne ne]
        exact inv.reserved h hh write'
      · obtain rfl := List.mem_singleton.mp hh
        rw [Function.update_self, Grant.memory, ← before]
        split
        · exact ⟨reserved, live, by rw [← memory]; rfl⟩
        · exact ⟨reserved, live, memory⟩

/-! ### The return of the rows -/

/-- What the return of every access preserves. -/
theorem returnRows_preserves {rc : RC} {P : Row → Prop} {x : ρ}
    (step : ∀ (a : Access ρ) r, P r → P (returnRow scheme rc a r)) (accesses : List (Access ρ))
    {rows : ρ → Row} (start : P (rows x)) : P (returnRows scheme rc accesses rows x) := by
  induction accesses generalizing rows with
  | nil => exact start
  | cons a accesses ih =>
    rw [returnRows, List.foldl_cons]
    apply ih
    by_cases same : x = a.origRow
    · subst same
      rw [Function.update_self]
      exact step a _ start
    · rw [Function.update_of_ne same]
      exact start

/-- If the accesses to a row all do the same to it, once is enough. -/
theorem returnRows_once {rc : RC} (f : Row → Row) (idem : ∀ r, f (f r) = f r) {x : ρ}
    {accesses : List (Access ρ)}
    (act : ∀ a ∈ accesses, a.origRow = x →
      (∀ r, returnRow scheme rc a r = r) ∨ ∀ r, returnRow scheme rc a r = f r)
    (some : ∃ a ∈ accesses, a.origRow = x ∧ ∀ r, returnRow scheme rc a r = f r)
    (rows : ρ → Row) : returnRows scheme rc accesses rows x = f (rows x) := by
  -- the row is as it shall be, or an access that is still to come makes it so
  have general (accesses : List (Access ρ)) (rows : ρ → Row) (r : Row)
      (act : ∀ a ∈ accesses, a.origRow = x →
        (∀ r, returnRow scheme rc a r = r) ∨ ∀ r, returnRow scheme rc a r = f r)
      (now : rows x = f r ∨ rows x = r ∧
        ∃ a ∈ accesses, a.origRow = x ∧ ∀ r, returnRow scheme rc a r = f r) :
      returnRows scheme rc accesses rows x = f r := by
    induction accesses generalizing rows with
    | nil =>
      rcases now with done | ⟨-, a, ha, -⟩
      · exact done
      · cases ha
    | cons a accesses ih =>
      rw [returnRows, List.foldl_cons]
      apply ih
      · exact fun b hb => act b (List.mem_cons_of_mem _ hb)
      · by_cases same : a.origRow = x
        · subst same
          rw [Function.update_self]
          rcases now with done | ⟨yet, b, hb, at_, does⟩
          · -- the row is as it shall be
            rw [done]
            rcases act a List.mem_cons_self rfl with nothing | does
            · exact .inl (nothing _)
            · exact .inl ((does _).trans (idem r))
          · -- this access does it, or one behind it
            rw [yet]
            rcases List.mem_cons.mp hb with rfl | hb
            · exact .inl (does r)
            · rcases act a List.mem_cons_self rfl with nothing | does'
              · exact .inr ⟨nothing r, b, hb, at_, does⟩
              · exact .inl (does' r)
        · rw [Function.update_of_ne (Ne.symm same)]
          rcases now with done | ⟨yet, b, hb, at_, does⟩
          · exact .inl done
          · rcases List.mem_cons.mp hb with rfl | hb
            · exact absurd at_ same
            · exact .inr ⟨yet, b, hb, at_, does⟩
  exact general accesses rows (rows x) act (.inr ⟨rfl, some⟩)

omit [DecidableEq ρ] in
theorem mem_of_mem_returnOrder {accesses : List (Access ρ)} {a : Access ρ}
    (mem : a ∈ returnOrder scheme primaryKey accesses) : a ∈ accesses := by
  cases scheme with
  | SILO => exact List.mem_of_mem_filter ((BubbleSort.perm_sort _ _).mem_iff.mp mem)
  | TICTOC => exact List.mem_of_mem_filter ((BubbleSort.perm_sort _ _).mem_iff.mp mem)
  | OCC => exact List.mem_reverse.mp mem
  | MVCC => exact List.mem_reverse.mp mem
  | HEKATON => exact mem

omit [DecidableEq ρ] in
/-- Every write is returned. -/
theorem mem_returnOrder {accesses : List (Access ρ)} {a : Access ρ} (mem : a ∈ accesses)
    (write : a.type = .WR) : a ∈ returnOrder scheme primaryKey accesses := by
  have kept : a ∈ accesses.filter (·.type = .WR) := List.mem_filter.mpr ⟨mem, by simpa using write⟩
  cases scheme with
  | SILO => exact (BubbleSort.perm_sort _ _).mem_iff.mpr kept
  | TICTOC => exact (BubbleSort.perm_sort _ _).mem_iff.mpr kept
  | OCC => exact List.mem_reverse.mpr mem
  | MVCC => exact List.mem_reverse.mpr mem
  | HEKATON => exact mem

omit [DecidableEq ρ] in
theorem returnRow_copy (copies : scheme.copies = true) {a : Access ρ} {data : Data}
    (is : a.data = .copy data) (write : a.type = .WR) (r : Row) :
    returnRow scheme .RCOK a r = r.store 0 data := by
  cases scheme with
  | SILO => simp [returnRow, is, write]
  | TICTOC => simp [returnRow, is, write]
  | OCC => simp [returnRow, is, write]
  | MVCC => cases copies
  | HEKATON => cases copies

omit [DecidableEq ρ] in
/-- Only a write that commits is copied to the row. -/
theorem returnRow_of_not_copy (copies : scheme.copies = true) {rc : RC} {a : Access ρ}
    (none : ¬ (a.type = .WR ∧ rc = .RCOK)) (r : Row) : returnRow scheme rc a r = r := by
  cases scheme with
  | SILO => cases is : a.data <;> simp only [returnRow, is, if_neg none]
  | TICTOC => cases is : a.data <;> simp only [returnRow, is, if_neg none]
  | OCC => cases is : a.data <;> simp only [returnRow, is, if_neg none]
  | MVCC => cases copies
  | HEKATON => cases copies

omit [DecidableEq ρ] in
/-- After an abort the copies are dropped, and the pre-writes released. -/
theorem returnRow_abort (scheme : Scheme) (a : Access ρ) (r : Row) :
    returnRow scheme .Abort a r = r ∨ returnRow scheme .Abort a r = r.release := by
  unfold returnRow
  split
  · exact .inl (if_neg fun h => nomatch h.2)
  · exact .inl (if_neg fun h => nomatch h.2)
  · exact .inl (if_neg fun h => nomatch h.2)
  · split
    · exact .inr rfl
    · exact .inl rfl
  · split
    · exact .inl rfl
    · exact .inr rfl
  · exact .inl rfl

omit [DecidableEq ρ] in
theorem returnRow_commit (versions : scheme.copies = false) (a : Access ρ) :
    (a.type = .WR → ∀ r, returnRow scheme .RCOK a r = r.commit) ∧
      ((∀ r, returnRow scheme .RCOK a r = r) ∨ ∀ r, returnRow scheme .RCOK a r = r.commit) := by
  cases scheme with
  | SILO => cases versions
  | TICTOC => cases versions
  | OCC => cases versions
  | MVCC =>
    refine ⟨fun write r => ?_, ?_⟩
    · simp [returnRow, write]
    · by_cases write : a.type = .WR
      · exact .inr fun r => by simp [returnRow, write]
      · exact .inl fun r => by simp [returnRow, write]
  | HEKATON =>
    refine ⟨fun write r => ?_, ?_⟩
    · simp [returnRow, write]
    · by_cases read : a.type = .RD
      · exact .inl fun r => by simp [returnRow, read]
      · exact .inr fun r => by simp [returnRow, read]

/-! ### The effect -/

omit [DecidableEq ρ] in
/-- What a transaction is to do: after a commit the rows that it writes have what it has written,
after an abort every row has its versions, with their data. -/
def Effect (rc : RC) (visits : List (ρ × AccessType)) (rows rows' : ρ → Row) : Prop :=
  (rc = .RCOK → ∀ x, (x, AccessType.WR) ∈ visits → (rows' x).data = writeField 0 (rows x).data) ∧
  (rc = .Abort → ∀ x, (rows' x).latest = (rows x).latest ∧
    ∀ b ∈ (rows' x).live, (rows' x).memory b = (rows x).memory b)

omit [DecidableEq ρ] in
/-- The write of an access does not matter. -/
def Harmless (scheme : Scheme) (commits : Prop) (rows : ρ → Row) (g : Grant ρ) : Prop :=
  if scheme.copies then Clean (rows g.row).data
  else (commits → g.buffer = 0 ∨ Clean (rows g.row).data) ∧
    (¬ commits → 0 ∉ g.live ∨ Clean ((rows g.row).memory 0))

variable {rows : ρ → Row} {gs : List (Grant ρ)} {g : Grant ρ}

theorem Copied.commit (inv : Copied rows gs s) (copies : scheme.copies = true)
    (single : (rows g.row).latest = 0) (mem : g ∈ gs) (write : g.type = .WR) :
    (returnRows scheme .RCOK (returnOrder scheme primaryKey s.accesses) s.rows g.row).data =
      (rows g.row).data := by
  -- all writes to the row have the same copy
  have once : returnRows scheme .RCOK (returnOrder scheme primaryKey s.accesses) s.rows g.row =
      (s.rows g.row).store 0 ((rows g.row).memory 0) := by
    apply returnRows_once (fun r => r.store 0 ((rows g.row).memory 0))
      (fun r => Row.store_store r 0 _ _)
    · intro a ha at_
      by_cases write : a.type = .WR
      · have data := inv.data a (mem_of_mem_returnOrder ha) write
        rw [at_] at data
        exact .inr (returnRow_copy copies data write)
      · exact .inl (returnRow_of_not_copy copies fun h => write h.1)
    · obtain ⟨a, ha, at_, type⟩ := inv.access g mem
      have write : a.type = .WR := type.trans write
      have data := inv.data a ha write
      rw [at_] at data
      exact ⟨a, mem_returnOrder ha write, at_, returnRow_copy copies data write⟩
  rw [once, inv.written g mem write, Row.store_store, Row.data, Row.data, single]
  change Function.update _ 0 _ (rows g.row).latest = _
  rw [single, Function.update_self]

theorem Prewritten.commit (inv : Prewritten rows gs s) (versions : scheme.copies = false)
    (mem : g ∈ gs) (write : g.type = .WR) :
    (returnRows scheme .RCOK (returnOrder scheme primaryKey s.accesses) s.rows g.row).data =
      g.memory (rows g.row) g.buffer := by
  have once : returnRows scheme .RCOK (returnOrder scheme primaryKey s.accesses) s.rows g.row =
      (s.rows g.row).commit := by
    apply returnRows_once Row.commit Row.commit_commit
    · intro a _ _
      exact (returnRow_commit versions a).2
    · obtain ⟨a, ha, at_, type⟩ := inv.access g mem
      have write : a.type = .WR := type.trans write
      exact ⟨a, mem_returnOrder ha write, at_, (returnRow_commit versions a).1 write⟩
  obtain ⟨reserved, -, memory⟩ := inv.reserved g mem (by rw [write]; nofun)
  obtain ⟨latest, same, -⟩ := Row.commit_spec reserved
  rw [once, Row.data, latest, same, memory]

/-- An abort leaves the memory and the versions as the accesses have left them. -/
theorem returnRows_abort (scheme : Scheme) (accesses : List (Access ρ)) (rows : ρ → Row) (x : ρ) :
    (returnRows scheme .Abort accesses rows x).memory = (rows x).memory ∧
      (returnRows scheme .Abort accesses rows x).latest = (rows x).latest ∧
        (returnRows scheme .Abort accesses rows x).live = (rows x).live := by
  refine returnRows_preserves (P := fun r => r.memory = (rows x).memory ∧
    r.latest = (rows x).latest ∧ r.live = (rows x).live) ?_ accesses ⟨rfl, rfl, rfl⟩
  intro a r same
  rcases returnRow_abort scheme a r with is | is
  · rw [is]
    exact same
  · rw [is]
    exact same

omit [DecidableEq ρ] in
/-- A write that commits to a version of which there is no other copy. -/
theorem Grant.memory_buffer (write : g.type = .WR) (r : Row) :
    g.memory r g.buffer = writeField 0 r.data ↔ g.buffer = 0 ∨ Clean r.data := by
  rw [Grant.memory, if_pos write]
  by_cases same : g.buffer = 0
  · simp [same]
  · rw [Function.update_of_ne same, Function.update_self, ← writeField_eq_iff]
    constructor
    · exact fun is => .inr is.symm
    · rintro (zero | is)
      · exact absurd zero same
      · exact is.symm

omit [DecidableEq ρ] in
/-- The versions of a row after a write that aborts. -/
theorem Grant.memory_live (write : g.type = .WR) (r : Row) (new : g.buffer ∉ g.live) :
    (∀ b ∈ g.live, g.memory r b = r.memory b) ↔ 0 ∉ g.live ∨ Clean (r.memory 0) := by
  have other (b : Nat) (mem : b ∈ g.live) : b ≠ g.buffer := fun same => new (same ▸ mem)
  rw [Grant.memory, if_pos write]
  constructor
  · intro same
    by_cases mem : 0 ∈ g.live
    · have at_ := same 0 mem
      rw [Function.update_self, Function.update_of_ne (other 0 mem)] at at_
      exact .inr (writeField_eq_iff.mp at_)
    · exact .inl mem
  · intro harmless b mem
    by_cases zero : b = 0
    · subst zero
      rw [Function.update_self, Function.update_of_ne (other 0 mem)]
      rcases harmless with none | clean
      · exact absurd mem none
      · exact writeField_eq_iff.mpr clean
    · rw [Function.update_of_ne zero, Function.update_of_ne (other b mem)]

omit [DecidableEq ρ] in
/-- The answers are those to the first accesses. -/
theorem map_reached (visits : List (ρ × AccessType)) (answers : List Answer) :
    (reached visits answers).map (fun g => (g.row, g.type)) <+: visits := by
  induction visits generalizing answers with
  | nil => cases answers <;> exact List.nil_prefix
  | cons visit visits ih =>
    match answers with
    | [] => exact List.nil_prefix
    | .abort :: _ => exact List.nil_prefix
    | .grant b live :: answers =>
      rw [reached, List.map_cons]
      exact List.prefix_cons_iff.mpr (.inr ⟨_, rfl, ih answers⟩)

theorem performAll_copied (copies : scheme.copies = true)
    (distinct : ((gs.map fun g => (g.row, g.type)).filter (·.2 = .WR)).Nodup)
    {rows : ρ → Row} (all : TxnState.performAll scheme ⟨rows, []⟩ gs = some s') :
    Copied rows gs s' := by
  refine TxnState.performAll_induct (I := Copied rows) ?_
    ⟨fun _ h => (nomatch h), fun x _ => rfl, fun _ h => (nomatch h),
      fun _ h => absurd h List.not_mem_nil⟩ all
  intro done g s s' front inv ok
  apply inv.step copies _ ok
  intro write h hh same write'
  -- otherwise the row would be written twice
  have nodup : (((done ++ [g]).map fun g => (g.row, g.type)).filter (·.2 = .WR)).Nodup :=
    distinct.sublist ((front.sublist.map _).filter _)
  rw [List.map_append, List.filter_append, List.nodup_append] at nodup
  apply nodup.2.2 (h.row, h.type) ?_ (g.row, g.type) ?_ (by rw [same, write, write'])
  · apply List.mem_filter.mpr
    exact ⟨List.mem_map_of_mem hh, by simpa using write'⟩
  · simp [write]

theorem performAll_prewritten (versions : scheme.copies = false) {rows : ρ → Row}
    (all : TxnState.performAll scheme ⟨rows, []⟩ gs = some s') : Prewritten rows gs s' := by
  refine TxnState.performAll_induct (I := Prewritten rows) ?_
    ⟨fun x => rfl, fun x _ => rfl, fun _ h => (nomatch h), fun _ h => (nomatch h)⟩ all
  intro done g s s' _ inv ok
  exact inv.step versions ok

theorem latest_of_single {r : Row} (single : r.live = [0]) : r.latest = 0 := by
  have mem := r.latest_live
  rw [single] at mem
  exact List.mem_singleton.mp mem

/-- An abort of a transaction with copies: what has been written in place stays. -/
theorem Copied.abort_iff (scheme : Scheme) (inv : Copied rows gs s) (single : ∀ x, (rows x).live = [0])
    (accesses : List (Access ρ)) :
    (∀ x, (returnRows scheme .Abort accesses s.rows x).latest = (rows x).latest ∧
      ∀ b ∈ (returnRows scheme .Abort accesses s.rows x).live,
        (returnRows scheme .Abort accesses s.rows x).memory b = (rows x).memory b) ↔
      ∀ g ∈ gs, g.type = .WR → Clean (rows g.row).data := by
  constructor
  · intro same g mem write
    obtain ⟨memory, -, live⟩ := returnRows_abort scheme accesses s.rows g.row
    have at_ := (same g.row).2 0 (by rw [live, inv.written g mem write]; simp [Row.store, single])
    rw [memory, inv.written g mem write] at at_
    rw [Row.data, latest_of_single (single g.row)]
    apply writeField_eq_iff.mp
    simpa [Row.store] using at_
  · intro clean x
    obtain ⟨memory, latest, live⟩ := returnRows_abort scheme accesses s.rows x
    rw [memory, latest, live]
    by_cases write : ∃ g ∈ gs, g.row = x ∧ g.type = .WR
    · obtain ⟨g, mem, rfl, write⟩ := write
      rw [inv.written g mem write]
      refine ⟨rfl, fun b hb => ?_⟩
      obtain rfl : b = 0 := by simpa [Row.store, single] using hb
      have clean := clean g mem write
      rw [Row.data, latest_of_single (single g.row)] at clean
      simpa [Row.store] using writeField_eq_iff.mpr clean
    · rw [inv.kept x fun g mem at_ write' => write ⟨g, mem, at_, write'⟩]
      exact ⟨rfl, fun b _ => rfl⟩

/-- An abort of a transaction with versions: what has been written to a version stays. -/
theorem Prewritten.abort_iff (scheme : Scheme) (inv : Prewritten rows gs s) (accesses : List (Access ρ)) :
    (∀ x, (returnRows scheme .Abort accesses s.rows x).latest = (rows x).latest ∧
      ∀ b ∈ (returnRows scheme .Abort accesses s.rows x).live,
        (returnRows scheme .Abort accesses s.rows x).memory b = (rows x).memory b) ↔
      ∀ g ∈ gs, g.type = .WR → 0 ∉ g.live ∨ Clean ((rows g.row).memory 0) := by
  -- the buffer of a pre-write is none of the versions that readers can get
  have new (g : Grant ρ) (mem : g ∈ gs) (write : g.type ≠ .RD) : g.buffer ∉ g.live := by
    obtain ⟨reserved, live, -⟩ := inv.reserved g mem write
    rw [← live]
    exact (s.rows g.row).reserved_not_live _ reserved
  constructor
  · intro same g mem write
    have write' : g.type ≠ .RD := by rw [write]; nofun
    obtain ⟨memory, -, live⟩ := returnRows_abort scheme accesses s.rows g.row
    obtain ⟨-, live', memory'⟩ := inv.reserved g mem write'
    apply (Grant.memory_live write (rows g.row) (new g mem write')).mp
    intro b hb
    rw [← memory', ← memory]
    exact (same g.row).2 b (by rw [live, live']; exact hb)
  · intro harmless x
    obtain ⟨memory, latest, live⟩ := returnRows_abort scheme accesses s.rows x
    rw [memory, latest, live]
    refine ⟨inv.latest x, ?_⟩
    by_cases write : ∃ g ∈ gs, g.row = x ∧ g.type ≠ .RD
    · obtain ⟨g, mem, rfl, write⟩ := write
      obtain ⟨-, live', memory'⟩ := inv.reserved g mem write
      rw [live', memory']
      by_cases type : g.type = .WR
      · exact (Grant.memory_live type _ (new g mem write)).mpr (harmless g mem type)
      · -- a scan changes only the row of its pre-write
        intro b hb
        have ne : b ≠ g.buffer := fun same => new g mem write (same ▸ hb)
        rw [Grant.memory, if_neg type, Function.update_of_ne ne]
    · rw [inv.kept x fun g mem at_ => by_contra fun read => write ⟨g, mem, at_, read⟩]
      -- a row without a pre-write is as it was
      exact fun b _ => rfl

/-- **The effect of a YCSB transaction** with more than one request, whose writes are to different
rows: it is that of a transaction if and only if no write matters. -/
theorem ycsb_effect (scheme : Scheme) (primaryKey : ρ → Nat) (indexRead : Nat → ρ)
    (indexNext : Nat → Nat → Option ρ) (requests : List Request) (answers : List Answer)
    (valid : Bool) {rows rows' : ρ → Row} {rc : RC} (several : 1 < requests.length)
    (distinct : ((visits indexRead indexNext requests).filter (·.2 = .WR)).Nodup)
    (single : scheme.copies = true → ∀ x, (rows x).live = [0])
    (run : runTxn scheme primaryKey indexRead indexNext requests answers valid rows =
      some (rc, rows')) :
    Effect rc (visits indexRead indexNext requests) rows rows' ↔
      ∀ g ∈ reached (visits indexRead indexNext requests) answers, g.type = .WR →
        Harmless scheme (Commits scheme valid (visits indexRead indexNext requests) answers)
          rows g := by
  obtain ⟨s, all, finished⟩ := runLoop_spec several _ _ run
  have front := map_reached (visits indexRead indexNext requests) answers
  unfold Commits
  generalize visits indexRead indexNext requests = vs at *
  generalize reached vs answers = gs at *
  have distinct := distinct.sublist (front.sublist.filter _)
  by_cases commits : gs.length = vs.length ∧ (scheme = .MVCC ∨ valid = true)
  · -- all accesses are performed, so they are those of the visits
    have vs_eq : gs.map (fun g => (g.row, g.type)) = vs :=
      front.eq_of_length (by rw [List.length_map, commits.1])
    have ok : rc = .RCOK ∧ rows' =
        returnRows scheme .RCOK (returnOrder scheme primaryKey s.accesses) s.rows := by
      rw [if_pos commits.1, finish, if_pos (commits.2.imp id fun v => ⟨rfl, v⟩)] at finished
      exact Prod.mk.inj finished
    obtain ⟨rfl, rfl⟩ := ok
    -- a commit: the property is about the rows that are written
    have effect : Effect .RCOK vs rows
        (returnRows scheme .RCOK (returnOrder scheme primaryKey s.accesses) s.rows) ↔
        ∀ g ∈ gs, g.type = .WR →
          (returnRows scheme .RCOK (returnOrder scheme primaryKey s.accesses) s.rows g.row).data =
            writeField 0 (rows g.row).data := by
      rw [Effect, ← vs_eq]
      constructor
      · intro same g mem write
        exact same.1 rfl g.row (List.mem_map.mpr ⟨g, mem, by rw [write]⟩)
      · refine fun same => ⟨fun _ x visited => ?_, (fun h => by cases h)⟩
        obtain ⟨g, mem, is⟩ := List.mem_map.mp visited
        obtain ⟨rfl, write⟩ := Prod.mk.inj is
        exact same g mem write
    rw [effect]
    refine forall₃_congr fun g mem write => ?_
    cases copies : scheme.copies with
    | true =>
      -- the copies are written back, so the write to the row itself is lost
      have inv := performAll_copied copies distinct all
      rw [inv.commit copies (latest_of_single (single copies g.row)) mem write, Harmless,
        if_pos copies, eq_comm]
      exact writeField_eq_iff
    | false =>
      -- a write is in the latest version if that is the data of the row
      have inv := performAll_prewritten copies all
      rw [inv.commit copies mem write, Harmless, if_neg (by rw [copies]; exact Bool.false_ne_true),
        Grant.memory_buffer write]
      exact ⟨fun h => ⟨fun _ => h, fun no => absurd commits no⟩, fun h => h.1 commits⟩
  · -- an abort: one access was refused, or the validation has failed
    have aborts : (if scheme = .MVCC ∨
        (if gs.length = vs.length then RC.RCOK else .Abort) = .RCOK ∧ valid = true then
          if gs.length = vs.length then RC.RCOK else .Abort
        else .Abort) = RC.Abort := by
      by_cases all : gs.length = vs.length
      · rw [if_neg]
        rintro (mvcc | ⟨-, v⟩)
        · exact commits ⟨all, .inl mvcc⟩
        · exact commits ⟨all, .inr v⟩
      · simp [all]
    have ok : rc = .Abort ∧ rows' =
        returnRows scheme .Abort (returnOrder scheme primaryKey s.accesses) s.rows := by
      rw [finish, aborts] at finished
      exact Prod.mk.inj finished
    obtain ⟨rfl, rfl⟩ := ok
    cases copies : scheme.copies with
    | true =>
      have inv := performAll_copied copies distinct all
      have iff := inv.abort_iff scheme (single copies) (returnOrder scheme primaryKey s.accesses)
      constructor
      · intro effect g mem write
        rw [Harmless, if_pos copies]
        exact iff.mp (effect.2 rfl) g mem write
      · intro harmless
        refine ⟨(fun h => by cases h), fun _ => iff.mpr fun g mem write => ?_⟩
        have clean := harmless g mem write
        rwa [Harmless, if_pos copies] at clean
    | false =>
      have inv := performAll_prewritten copies all
      have iff := inv.abort_iff scheme (returnOrder scheme primaryKey s.accesses)
      have not_copies : ¬ scheme.copies = true := by rw [copies]; exact Bool.false_ne_true
      constructor
      · intro effect g mem write
        rw [Harmless, if_neg not_copies]
        exact ⟨fun yes => absurd yes commits, fun _ => iff.mp (effect.2 rfl) g mem write⟩
      · intro harmless
        refine ⟨(fun h => by cases h), fun _ => iff.mpr fun g mem write => ?_⟩
        have unseen := harmless g mem write
        rw [Harmless, if_neg not_copies] at unseen
        exact unseen.2 commits

end

/-- A row with one version, all bytes the same. -/
def filled (byte : BitVec 8) : Row where
  memory _ _ := byte
  latest := 0
  live := [0]
  reserved := none
  latest_live := List.mem_cons_self
  reserved_not_live := nofun

/-- A row whose latest version is not in the `row_t` of the index, with bytes that are not zero. -/
def moved : Row where
  memory b i := BitVec.ofNat 8 (b + i)
  latest := 1
  live := [1]
  reserved := none
  latest_live := List.mem_cons_self
  reserved_not_live := nofun

/-- A row with one version, of which the first field is zero and the other bytes are 7. -/
def cleared : Row := (filled 7).store 0 (writeField 0 fun _ => 7)

/-- Two requests that write, and one that reads between them. -/
def writeReadWrite : List Request := [⟨.WR, 0, 0⟩, ⟨.RD, 1, 0⟩, ⟨.WR, 2, 0⟩]

/-- Under MVCC the writes get the `row_t` of the index, and become the new versions; under SILO the
fields that they clear are zero before. -/
theorem ycsb_effect_moved :
    (∃ rows' : Nat → Row,
      runTxn .MVCC id id (fun _ _ => none) writeReadWrite
        [.grant 0 [1], .grant 1 [], .grant 0 [1]] true (fun _ => moved) = some (.RCOK, rows') ∧
      (rows' 0).latest = 0 ∧ (rows' 0).data 7 = 0 ∧ (rows' 0).data 9 = 10 ∧
      Effect .RCOK (visits id (fun _ _ => none) writeReadWrite) (fun _ => moved) rows') ∧
    ∃ rows' : Nat → Row,
      runTxn .SILO id id (fun _ _ => none) writeReadWrite
        [.grant 0 [], .grant 0 [], .grant 0 []] true (fun _ => cleared) = some (.RCOK, rows') ∧
      Effect .RCOK (visits id (fun _ _ => none) writeReadWrite) (fun _ => cleared) rows' := by
  constructor
  · refine ⟨_, rfl, rfl, rfl, rfl, ?_⟩
    apply (ycsb_effect .MVCC id id (fun _ _ => none) writeReadWrite
      [.grant 0 [1], .grant 1 [], .grant 0 [1]] true (by decide) (by decide) nofun rfl).mpr
    -- the version that is reserved is the one that the write goes to
    intro g mem write
    have commits : Commits .MVCC true (visits id (fun _ _ => none) writeReadWrite)
        [.grant 0 [1], .grant 1 [], .grant 0 [1]] := ⟨rfl, .inl rfl⟩
    have granted : g ∈ [⟨0, .WR, 0, [1]⟩, ⟨1, .RD, 1, []⟩, ⟨2, .WR, 0, [1]⟩] := mem
    refine ⟨fun _ => .inl ?_, fun no => absurd commits no⟩
    simp only [List.mem_cons, List.not_mem_nil, or_false] at granted
    rcases granted with rfl | rfl | rfl
    · rfl
    · cases write
    · rfl
  · refine ⟨_, rfl, ?_⟩
    apply (ycsb_effect .SILO id id (fun _ _ => none) writeReadWrite
      [.grant 0 [], .grant 0 [], .grant 0 []] true (by decide) (by decide) (fun _ _ => rfl) rfl).mpr
    intro g _ _ i lt
    exact if_pos ⟨Nat.zero_le _, by omega⟩

/-- Two requests that write. -/
def twoWrites : List Request := [⟨.WR, 0, 0⟩, ⟨.WR, 1, 0⟩]

/-- The write of a transaction that commits is lost, and that of one that aborts stays. -/
theorem ycsb_effect_shared :
    (∃ rows' : Nat → Row,
      runTxn .SILO id id (fun _ _ => none) twoWrites [.grant 0 [], .grant 0 []] true
        (fun _ => filled 7) = some (.RCOK, rows') ∧
      ¬ Effect .RCOK (visits id (fun _ _ => none) twoWrites) (fun _ => filled 7) rows') ∧
    ∃ rows' : Nat → Row,
      runTxn .MVCC id id (fun _ _ => none) twoWrites [.grant 1 [0], .abort] true
        (fun _ => filled 7) = some (.Abort, rows') ∧
      ¬ Effect .Abort (visits id (fun _ _ => none) twoWrites) (fun _ => filled 7) rows' := by
  constructor
  · refine ⟨_, rfl, fun effect => ?_⟩
    have at_ := congrFun (effect.1 rfl 0 (by decide)) 0
    revert at_
    decide
  · refine ⟨_, rfl, fun effect => ?_⟩
    have at_ := congrFun ((effect.2 rfl 0).2 0 (by decide)) 0
    revert at_
    decide

end DBx1000.Ycsb
