import Mathlib.Data.List.Perm.Subperm

/-!
# Traces of locks

What one thread does to the rows that it shares with others: it acquires and releases locks, and
acts on rows. In a trace without faults it acquires a lock only while it does not hold it, and
releases only locks that it holds, so every acquired lock that is not held at the end has been
released once.
-/

namespace LockTrace

/-- A lock that is acquired or released, or an action on a row. -/
inductive RowEvent (ρ A : Type*)
  | acquire (x : ρ)
  | release (x : ρ)
  | act (x : ρ) (a : A)
  deriving DecidableEq

variable {ρ A : Type*}

/-- The actions of a trace. -/
def acts (trace : List (RowEvent ρ A)) : List (ρ × A) :=
  trace.filterMap fun
    | .act x a => some (x, a)
    | _ => none

@[simp] theorem acts_nil : acts ([] : List (RowEvent ρ A)) = [] := rfl

@[simp] theorem acts_append (trace more : List (RowEvent ρ A)) :
    acts (trace ++ more) = acts trace ++ acts more := List.filterMap_append ..

@[simp] theorem acts_acquire (x : ρ) : acts [(.acquire x : RowEvent ρ A)] = [] := rfl

@[simp] theorem acts_release (x : ρ) : acts [(.release x : RowEvent ρ A)] = [] := rfl

@[simp] theorem acts_act (x : ρ) (a : A) : acts [.act x a] = [(x, a)] := rfl

variable [DecidableEq ρ]

/-- The locks that are held after a trace; `none` if it acquires a lock that it holds, or
releases one that it does not hold. -/
def locksAfter : List ρ → List (RowEvent ρ A) → Option (List ρ)
  | held, [] => some held
  | held, .acquire x :: trace => if x ∈ held then none else locksAfter (x :: held) trace
  | held, .release x :: trace => if x ∈ held then locksAfter (held.erase x) trace else none
  | held, .act _ _ :: trace => locksAfter held trace

theorem locksAfter_append (held : List ρ) (trace more : List (RowEvent ρ A)) :
    locksAfter held (trace ++ more) = (locksAfter held trace).bind fun held =>
      locksAfter held more := by
  induction trace generalizing held with
  | nil => rfl
  | cons e trace ih =>
    cases e with
    | acquire x =>
      simp only [List.cons_append, locksAfter]
      split
      · rfl
      · exact ih _
    | release x =>
      simp only [List.cons_append, locksAfter]
      split
      · exact ih _
      · rfl
    | act x a => exact ih held

theorem nodup_locksAfter {held after : List ρ} (trace : List (RowEvent ρ A)) (nodup : held.Nodup)
    (is : locksAfter held trace = some after) : after.Nodup := by
  induction trace generalizing held with
  | nil =>
    cases is
    exact nodup
  | cons e trace ih =>
    cases e with
    | acquire x =>
      rw [locksAfter] at is
      split at is
      · cases is
      · next new => exact ih (List.nodup_cons.mpr ⟨new, nodup⟩) is
    | release x =>
      rw [locksAfter] at is
      split at is
      · exact ih (nodup.erase x) is
      · cases is
    | act x a => exact ih nodup is

/-- After the trace certain locks are held, and it has no fault. -/
def Holds (trace : List (RowEvent ρ A)) (rows : List ρ) : Prop :=
  ∃ held, locksAfter [] trace = some held ∧ held.Perm rows

namespace Holds

theorem nil : Holds ([] : List (RowEvent ρ A)) ([] : List ρ) := ⟨[], rfl, .refl []⟩

variable {trace : List (RowEvent ρ A)} {rows : List ρ} {x : ρ}

theorem acquire (h : Holds trace rows) (new : x ∉ rows) :
    Holds (trace ++ [.acquire x]) (rows ++ [x]) := by
  obtain ⟨held, after, perm⟩ := h
  refine ⟨x :: held, ?_, ?_⟩
  · have fresh : x ∉ held := fun mem => new (perm.mem_iff.mp mem)
    rw [locksAfter_append, after, Option.bind_some, locksAfter, if_neg fresh, locksAfter]
  · exact (perm.cons x).trans (List.perm_append_singleton x rows).symm

theorem release (h : Holds trace (x :: rows)) : Holds (trace ++ [.release x]) rows := by
  obtain ⟨held, after, perm⟩ := h
  refine ⟨held.erase x, ?_, ?_⟩
  · have mem : x ∈ held := perm.mem_iff.mpr List.mem_cons_self
    rw [locksAfter_append, after, Option.bind_some, locksAfter, if_pos mem, locksAfter]
  · have erased := perm.erase x
    rwa [List.erase_cons_head] at erased

theorem act (h : Holds trace rows) (a : A) : Holds (trace ++ [.act x a]) rows := by
  obtain ⟨held, after, perm⟩ := h
  exact ⟨held, by rw [locksAfter_append, after]; rfl, perm⟩

theorem nodup (h : Holds trace rows) : rows.Nodup := by
  obtain ⟨held, after, perm⟩ := h
  exact perm.nodup_iff.mp (nodup_locksAfter trace List.nodup_nil after)

/-- A trace that holds no lock at its end has released every lock that it has acquired. -/
theorem closed (h : Holds trace []) : locksAfter [] trace = some [] := by
  obtain ⟨held, after, perm⟩ := h
  rw [after, perm.eq_nil]

end Holds

end LockTrace
