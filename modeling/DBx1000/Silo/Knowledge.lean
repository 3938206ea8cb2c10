import DBx1000.Silo.Transaction
import Mathlib.Data.List.Nodup

/-!
# What a Silo transaction knows

The tid of a row only grows, and it grows with every committed write. So a copy is what the
row has as long as the tid is the one that came with the copy, except between the copy and
the store of a `write`. A transaction takes its place in the serial order at the moment at
which it has all its locks: whoever writes a row that it has validated takes a later place.
-/

namespace DBx1000.Silo

open Transition SerialOrder

variable {ρ V τ : Type*}

namespace SiloPc

/-- The rows that the thread has locked. -/
def held : SiloPc ρ V → List ρ
  | .lock _ held _ | .cas _ held _ _ _ => held.map (·.origRow)
  | .check _ held a _ => (held ++ [a]).map (·.origRow)
  | .unlock _ rest | .write _ rest => rest.map (·.origRow)
  | .clear _ a rest _ | .verify _ a rest | .store _ a rest | .release _ a rest
  | .releaseStore _ a rest _ => (a :: rest).map (·.origRow)
  | .readValidate v _ _ _ | .writeValidate v _ _ _ => v.writeSet.map (·.origRow)
  | _ => []

/-- The writes of a committed transaction that are still to be done. -/
def owed : SiloPc ρ V → List (Access ρ V)
  | .write _ rest | .verify _ _ rest | .store _ _ rest | .release _ _ rest
  | .releaseStore _ _ rest _ => rest
  | _ => []

/-- A write between the copy of the data and the store of the tid. -/
def dirty : SiloPc ρ V → List (Access ρ V)
  | .verify _ a _ | .store _ a _ => [a]
  | _ => []

/-- The place in the serial order of a transaction that validates. -/
def stamp : SiloPc ρ V → Option Nat
  | .readValidate _ stamp _ _ | .writeValidate _ stamp _ _ => some stamp
  | _ => none

theorem mem_held_of_owed {p : SiloPc ρ V} {b : Access ρ V} (h : b ∈ p.owed ++ p.dirty) :
    b.origRow ∈ p.held := by
  cases p with
  | write tid rest =>
    rw [show SiloPc.dirty _ = ([] : List (Access ρ V)) from rfl, List.append_nil] at h
    exact List.mem_map_of_mem h
  | verify tid a rest =>
    rcases List.mem_append.mp h with h | h
    · exact List.mem_map_of_mem (List.mem_cons_of_mem _ h)
    · rw [List.mem_singleton.mp h]
      exact List.mem_cons_self
  | store tid a rest =>
    rcases List.mem_append.mp h with h | h
    · exact List.mem_map_of_mem (List.mem_cons_of_mem _ h)
    · rw [List.mem_singleton.mp h]
      exact List.mem_cons_self
  | release tid a rest =>
    rw [show SiloPc.dirty _ = ([] : List (Access ρ V)) from rfl, List.append_nil] at h
    exact List.mem_map_of_mem (List.mem_cons_of_mem _ h)
  | releaseStore tid a rest w =>
    rw [show SiloPc.dirty _ = ([] : List (Access ρ V)) from rfl, List.append_nil] at h
    exact List.mem_map_of_mem (List.mem_cons_of_mem _ h)
  | _ => cases h

end SiloPc

/-! ### The computations of `validate_silo` -/

theorem perm_sets (primaryKey : ρ → Nat) (accesses : List (Access ρ V)) :
    (readSet accesses ++ writeSet primaryKey accesses).Perm accesses := by
  refine (List.Perm.append_left _ (BubbleSort.perm_sort ..)).trans ?_
  refine List.perm_append_comm.trans ?_
  simpa [readSet] using List.filter_append_perm (fun a => decide (a.type = .WR)) accesses

theorem le_raiseTid (maxTid : Nat) (a : Access ρ V) :
    maxTid ≤ raiseTid maxTid a ∧ a.tid ≤ raiseTid maxTid a := by
  unfold raiseTid
  split <;> omega

theorem lt_nextTid (curTid maxTid : Nat) : maxTid < nextTid curTid maxTid := by
  unfold nextTid
  split <;> omega

theorem validate_write {w : TidWord} {tid : Nat} (h : w.validate tid true = true) : w.tid = tid := by
  simpa [TidWord.validate, eq_comm] using h

theorem validate_read {w : TidWord} {tid : Nat} (h : w.validate tid false = true) :
    w.lock = false ∧ w.tid = tid := by
  simp only [TidWord.validate, Bool.false_eq_true, if_false] at h
  split at h
  · cases h
  · next free =>
    split at h
    · cases h
    · next same => exact ⟨by simpa using free, (not_not.mp same).symm⟩

/-- A transaction that writes to a local copy changes neither the rows nor what was read. -/
theorem mem_modify {accesses : List (Access ρ V)} {rid : Nat} {data : V} {a : Access ρ V}
    (h : a ∈ accesses.modify rid fun a => { a with data := data }) :
    ∃ b ∈ accesses, b.origRow = a.origRow ∧ b.tid = a.tid ∧ b.read = a.read := by
  induction accesses generalizing rid with
  | nil => cases rid <;> cases h
  | cons c accesses ih =>
    cases rid with
    | zero =>
      rcases List.mem_cons.mp h with rfl | h
      · exact ⟨c, List.mem_cons_self, rfl, rfl, rfl⟩
      · exact ⟨a, List.mem_cons_of_mem _ h, rfl, rfl, rfl⟩
    | succ rid =>
      rcases List.mem_cons.mp h with rfl | h
      · exact ⟨a, List.mem_cons_self, rfl, rfl, rfl⟩
      · obtain ⟨b, hb, same⟩ := ih h
        exact ⟨b, List.mem_cons_of_mem _ hb, same⟩

theorem map_origRow_modify (accesses : List (Access ρ V)) (rid : Nat) (data : V) :
    (accesses.modify rid fun a => { a with data := data }).map (·.origRow) =
      accesses.map (·.origRow) := by
  induction accesses generalizing rid with
  | nil => cases rid <;> rfl
  | cons c accesses ih =>
    cases rid with
    | zero => rfl
    | succ rid => exact congrArg (c.origRow :: ·) (ih rid)

/-! ### Facts about accesses -/

/-- The data that came with a tid: the row has them while it has the tid. -/
structure Fresh (s : SiloState ρ V τ) (x : ρ) (tid : Nat) (data : V) : Prop where
  le : tid ≤ (s.word x).tid
  same : (s.word x).tid = tid → (∀ u, ∀ b ∈ (s.pc u).dirty, b.origRow ≠ x) → s.data x = data

/-- Whoever writes the row at a later place than `stamp` raises the tid above that of the copy. -/
def Behind (s : SiloState ρ V τ) (stamp : Nat) (a : Access ρ V) : Prop :=
  ∀ e ∈ s.log, e.writesTo a.origRow → stamp < e.time →
    (∃ u, ∃ b ∈ (s.pc u).owed ++ (s.pc u).dirty, b.origRow = a.origRow) ∨
      a.tid < (s.word a.origRow).tid

variable [DecidableEq ρ]

/-- What the validation of an access gives: the copy is the value at the place of the
transaction, and those who are about to write the row have later places. -/
structure Validated (init : ρ → V) (s : SiloState ρ V τ) (t : τ) (stamp maxTid : Nat)
    (a : Access ρ V) : Prop where
  known : valueAt init (serialOrder s.log) a.origRow stamp = a.read
  apart : ∀ u n, (s.pc u).stamp = some n → a.origRow ∈ (s.pc u).held → u = t ∨ stamp < n
  max : a.tid ≤ maxTid

theorem Validated.raise {init : ρ → V} {s : SiloState ρ V τ} {t : τ} {stamp maxTid : Nat}
    {a b : Access ρ V} (h : Validated init s t stamp maxTid b) :
    Validated init s t stamp (raiseTid maxTid a) b :=
  ⟨h.known, h.apart, Nat.le_trans h.max (le_raiseTid maxTid a).1⟩

/-- A write that is to be done: the log already has it. -/
structure Owed (init : ρ → V) (s : SiloState ρ V τ) (tid : Nat) (a : Access ρ V) : Prop where
  newer : (s.word a.origRow).tid < tid
  logged : after init (serialOrder s.log) a.origRow = a.data

omit [DecidableEq ρ] in
structure Copied (s : SiloState ρ V τ) (accesses : List (Access ρ V)) : Prop where
  nodup : (accesses.map (·.origRow)).Nodup
  fresh : ∀ a ∈ accesses, Fresh s a.origRow a.tid a.read

omit [DecidableEq ρ] in
abbrev Started (s : SiloState ρ V τ) (v : Validation ρ V) : Prop :=
  Copied s (v.readSet ++ v.writeSet)

omit [DecidableEq ρ] in
/-- What holds from the moment of all locks on. -/
structure Stamped (s : SiloState ρ V τ) (v : Validation ρ V) (stamp : Nat) : Prop where
  started : Started s v
  past : stamp < s.now
  behind : ∀ a ∈ v.readSet ++ v.writeSet, Behind s stamp a

/-- What a thread knows at each point of a transaction. -/
def SiloSound (init : ρ → V) (s : SiloState ρ V τ) (t : τ) : SiloPc ρ V → Prop
  | .idle => True
  | .running accesses => Copied s accesses
  | .load accesses row _ => Copied s accesses ∧ row ∉ accesses.map (·.origRow)
  | .copy accesses row _ v =>
    Copied s accesses ∧ row ∉ accesses.map (·.origRow) ∧ v.lock = false ∧
      v.tid ≤ (s.word row).tid
  | .reload accesses row _ v data =>
    Copied s accesses ∧ row ∉ accesses.map (·.origRow) ∧ v.lock = false ∧ Fresh s row v.tid data
  | .preWrite v _ | .preRead v _ => Started s v
  | .lock v held rest => Started s v ∧ v.writeSet = held ++ rest
  | .cas v held a rest w => Started s v ∧ v.writeSet = held ++ a :: rest ∧ w.lock = false
  | .check v held a rest => Started s v ∧ v.writeSet = held ++ a :: rest
  | .unlock again rest => (rest.map (·.origRow)).Nodup ∧ ∀ v, again = some v → Started s v
  | .clear again a rest w =>
    ((a :: rest).map (·.origRow)).Nodup ∧ (∀ v, again = some v → Started s v) ∧
      w = ⟨(s.word a.origRow).tid, false⟩
  | .readValidate v stamp rest maxTid =>
    Stamped s v stamp ∧ ∃ done, v.readSet = done ++ rest ∧
      ∀ a ∈ done, Validated init s t stamp maxTid a
  | .writeValidate v stamp rest maxTid =>
    Stamped s v stamp ∧ (∀ a ∈ v.readSet, Validated init s t stamp maxTid a) ∧
      ∃ done, v.writeSet = done ++ rest ∧
        ∀ a ∈ done, Validated init s t stamp maxTid a ∧ (s.word a.origRow).tid = a.tid
  | .write tid rest => (rest.map (·.origRow)).Nodup ∧ ∀ a ∈ rest, Owed init s tid a
  | .verify tid a rest | .store tid a rest =>
    ((a :: rest).map (·.origRow)).Nodup ∧ (s.word a.origRow).tid < tid ∧
      ∀ b ∈ rest, Owed init s tid b
  | .release tid a rest => ((a :: rest).map (·.origRow)).Nodup ∧ ∀ b ∈ rest, Owed init s tid b
  | .releaseStore tid a rest w =>
    ((a :: rest).map (·.origRow)).Nodup ∧ (∀ b ∈ rest, Owed init s tid b) ∧
      w = ⟨(s.word a.origRow).tid, false⟩

/-! ### What the other threads do to it -/

/-- What a step leaves of the knowledge of a thread that holds certain rows. -/
structure Respects (init : ρ → V) (u : τ) (held : List ρ) (s s' : SiloState ρ V τ) : Prop where
  fresh : ∀ x tid data, Fresh s x tid data → Fresh s' x tid data
  now : s.now ≤ s'.now
  behind : ∀ stamp a, stamp < s.now → Fresh s a.origRow a.tid a.read → Behind s stamp a →
    Behind s' stamp a
  validated : ∀ stamp maxTid a, stamp < s.now → Validated init s u stamp maxTid a →
    Validated init s' u stamp maxTid a
  tids : ∀ x ∈ held, (s'.word x).tid = (s.word x).tid
  values : ∀ x ∈ held, after init (serialOrder s'.log) x = after init (serialOrder s.log) x

variable {init : ρ → V} {s s' : SiloState ρ V τ} {u : τ} {p : SiloPc ρ V}

omit [DecidableEq ρ] in
theorem Copied.shift (fresh : ∀ x tid data, Fresh s x tid data → Fresh s' x tid data)
    {accesses : List (Access ρ V)} (h : Copied s accesses) : Copied s' accesses :=
  ⟨h.nodup, fun a ha => fresh _ _ _ (h.fresh a ha)⟩

theorem Stamped.shift {held : List ρ} (r : Respects init u held s s') {v : Validation ρ V} {stamp : Nat}
    (h : Stamped s v stamp) : Stamped s' v stamp :=
  ⟨h.started.shift r.fresh, Nat.lt_of_lt_of_le h.past r.now,
    fun a ha => r.behind _ a h.past (h.started.fresh a ha) (h.behind a ha)⟩

theorem Owed.shift {tid : Nat} {a : Access ρ V} (h : Owed init s tid a)
    (tids : (s'.word a.origRow).tid = (s.word a.origRow).tid)
    (values : after init (serialOrder s'.log) a.origRow = after init (serialOrder s.log) a.origRow) :
    Owed init s' tid a := by
  constructor
  · rw [tids]
    exact h.newer
  · rw [values]
    exact h.logged

/-- What a thread knows, it knows after every step that respects it. -/
theorem SiloSound.shift (r : Respects init u p.held s s') (h : SiloSound init s u p) :
    SiloSound init s' u p := by
  have copied {accesses : List (Access ρ V)} : Copied s accesses → Copied s' accesses :=
    Copied.shift r.fresh
  have tids := r.tids
  have owes {tid : Nat} {b : Access ρ V} (hb : b.origRow ∈ p.held) (h : Owed init s tid b) :
      Owed init s' tid b := h.shift (tids _ hb) (r.values _ hb)
  cases p with
  | idle => trivial
  | running accesses => exact copied h
  | load accesses row type => exact ⟨copied h.1, h.2⟩
  | copy accesses row type v =>
    obtain ⟨begun, new, free, le⟩ := h
    -- a tid that was there once is a bound for all that come after it
    have bound : v.tid ≤ (s'.word row).tid :=
      Nat.le_trans le (r.fresh row _ (s.data row) ⟨Nat.le_refl _, fun _ _ => rfl⟩).le
    exact ⟨copied begun, new, free, bound⟩
  | reload accesses row type v data =>
    obtain ⟨begun, new, free, fresh⟩ := h
    exact ⟨copied begun, new, free, r.fresh _ _ _ fresh⟩
  | preWrite v rest => exact copied h
  | preRead v rest => exact copied h
  | lock v held rest => exact ⟨copied h.1, h.2⟩
  | cas v held a rest w => exact ⟨copied h.1, h.2⟩
  | check v held a rest => exact ⟨copied h.1, h.2⟩
  | unlock again rest => exact ⟨h.1, fun v hv => copied (h.2 v hv)⟩
  | clear again a rest w =>
    obtain ⟨nodup, started, word⟩ := h
    refine ⟨nodup, fun v hv => copied (started v hv), ?_⟩
    rw [word, tids _ List.mem_cons_self]
  | readValidate v stamp rest maxTid =>
    obtain ⟨stamped, done, split, known⟩ := h
    exact ⟨stamped.shift r, done, split,
      fun a ha => r.validated _ _ a stamped.past (known a ha)⟩
  | writeValidate v stamp rest maxTid =>
    obtain ⟨stamped, reads, done, split, known⟩ := h
    refine ⟨stamped.shift r, fun a ha => r.validated _ _ a stamped.past (reads a ha), done, split,
      fun a ha => ?_⟩
    have held : a.origRow ∈ v.writeSet.map (·.origRow) := by
      rw [split]
      exact List.mem_map_of_mem (List.mem_append_left _ ha)
    refine ⟨r.validated _ _ a stamped.past (known a ha).1, ?_⟩
    rw [tids _ held]
    exact (known a ha).2
  | write tid rest => exact ⟨h.1, fun a ha => owes (List.mem_map_of_mem ha) (h.2 a ha)⟩
  | verify tid a rest =>
    obtain ⟨nodup, newer, owed⟩ := h
    refine ⟨nodup, ?_, fun b hb => owes (List.mem_map_of_mem (List.mem_cons_of_mem _ hb)) (owed b hb)⟩
    rw [tids _ List.mem_cons_self]
    exact newer
  | store tid a rest =>
    obtain ⟨nodup, newer, owed⟩ := h
    refine ⟨nodup, ?_, fun b hb => owes (List.mem_map_of_mem (List.mem_cons_of_mem _ hb)) (owed b hb)⟩
    rw [tids _ List.mem_cons_self]
    exact newer
  | release tid a rest =>
    exact ⟨h.1, fun b hb => owes (List.mem_map_of_mem (List.mem_cons_of_mem _ hb)) (h.2 b hb)⟩
  | releaseStore tid a rest w =>
    obtain ⟨nodup, owed, word⟩ := h
    refine ⟨nodup, fun b hb => owes (List.mem_map_of_mem (List.mem_cons_of_mem _ hb)) (owed b hb), ?_⟩
    rw [word, tids _ List.mem_cons_self]

end DBx1000.Silo
