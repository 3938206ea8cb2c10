import Mathlib.Data.List.Basic

/-!
# Labelled machines and their runs

A machine computes its next state from a state and a label; everything that a
scheduler or an environment decides is part of the label. `Along ok s as t` is a
run of the labels `as` from `s` to `t` whose steps all meet the condition `ok`,
which may look at the state before the step. `Reachable` and the invariant rules
are stated for such runs, with `Free` as the condition that excludes nothing.
-/

namespace Transition

/-- States and labels; a label that is not enabled in a state has no next state. -/
structure Machine (σ α : Type*) where
  init : σ → Prop
  step : σ → α → Option σ

/-- The condition that every step meets. -/
def Free {σ α : Type*} (_ : σ) (_ : α) : Prop := True

instance {σ α : Type*} (s : σ) (a : α) : Decidable (Free s a) := isTrue trivial

namespace Machine

variable {σ α : Type*} (m : Machine σ α) {ok : σ → α → Prop}

/-- Performs the labels in order; `none` as soon as one of them is not enabled. -/
def run : σ → List α → Option σ
  | s, [] => some s
  | s, a :: as => (m.step s a).bind fun t => run t as

@[simp] theorem run_nil (s : σ) : m.run s [] = some s := rfl

theorem run_cons (s : σ) (a : α) (as : List α) :
    m.run s (a :: as) = (m.step s a).bind fun t => m.run t as := rfl

theorem run_append (s : σ) (as bs : List α) :
    m.run s (as ++ bs) = (m.run s as).bind fun t => m.run t bs := by
  induction as generalizing s with
  | nil => rfl
  | cons a as ih =>
    simp only [List.cons_append, run_cons]
    cases m.step s a with
    | none => rfl
    | some t => exact ih t

/-- A run of the labels from one state to another, every step of it meeting `ok`. -/
inductive Along (ok : σ → α → Prop) : σ → List α → σ → Prop
  | nil (s : σ) : Along ok s [] s
  | cons {s t u : σ} {a : α} {as : List α} :
      ok s a → m.step s a = some t → Along ok t as u → Along ok s (a :: as) u

/-- A state that some run reaches from an initial state, every step meeting `ok`. -/
def Reachable (ok : σ → α → Prop) (t : σ) : Prop :=
  ∃ s as, m.init s ∧ m.Along ok s as t

variable {m}

theorem Along.run_eq {s t : σ} {as : List α} (path : m.Along ok s as t) :
    m.run s as = some t := by
  induction path with
  | nil s => rfl
  | cons _ next _ ih => rw [run_cons, next]; exact ih

theorem Along.unique {ok' : σ → α → Prop} {s t u : σ} {as : List α} (path : m.Along ok s as t)
    (path' : m.Along ok' s as u) : t = u :=
  Option.some.inj (path.run_eq.symm.trans path'.run_eq)

theorem along_of_run {s t : σ} {as : List α} (path : m.run s as = some t) :
    m.Along Free s as t := by
  induction as generalizing s with
  | nil => cases path; exact .nil _
  | cons a as ih =>
    rw [run_cons] at path
    obtain ⟨u, next, rest⟩ := Option.bind_eq_some_iff.mp path
    exact .cons trivial next (ih rest)

/-- Performs the labels as long as they meet a decidable condition. -/
def runIf (m : Machine σ α) (ok : σ → α → Prop) [∀ s a, Decidable (ok s a)] :
    σ → List α → Option σ
  | s, [] => some s
  | s, a :: as => if ok s a then (m.step s a).bind fun t => runIf m ok t as else none

theorem along_of_runIf [∀ s a, Decidable (ok s a)] {s t : σ} {as : List α}
    (path : m.runIf ok s as = some t) : m.Along ok s as t := by
  induction as generalizing s with
  | nil => cases path; exact .nil _
  | cons a as ih =>
    rw [runIf] at path
    split at path
    · next met =>
      obtain ⟨u, next, rest⟩ := Option.bind_eq_some_iff.mp path
      exact .cons met next (ih rest)
    · cases path

/-- A computed view of the end of a run gives the run and the view of its end. -/
theorem exists_along (m : Machine σ α) (ok : σ → α → Prop) [∀ s a, Decidable (ok s a)]
    {β : Type*} (s : σ) (as : List α) (f : σ → β) (b : β) (path : (m.runIf ok s as).map f = some b) :
    ∃ t, m.Along ok s as t ∧ f t = b := by
  obtain ⟨t, ht, hb⟩ := Option.map_eq_some_iff.mp path
  exact ⟨t, along_of_runIf ht, hb⟩

theorem Along.append {s t u : σ} {as bs : List α} (first : m.Along ok s as t)
    (second : m.Along ok t bs u) : m.Along ok s (as ++ bs) u := by
  induction first with
  | nil s => exact second
  | cons met next _ ih => exact .cons met next (ih second)

theorem Along.split {s u : σ} {as bs : List α} (run : m.Along ok s (as ++ bs) u) :
    ∃ t, m.Along ok s as t ∧ m.Along ok t bs u := by
  induction as generalizing s with
  | nil => exact ⟨s, .nil s, run⟩
  | cons a as ih =>
    cases run with
    | cons met next rest =>
      obtain ⟨t, first, second⟩ := ih rest
      exact ⟨t, .cons met next first, second⟩

theorem Along.weaken {ok' : σ → α → Prop} (le : ∀ s a, ok s a → ok' s a) {s t : σ} {as : List α}
    (run : m.Along ok s as t) : m.Along ok' s as t := by
  induction run with
  | nil s => exact .nil s
  | cons met next _ ih => exact .cons (le _ _ met) next ih

/-- What one step preserves, a run preserves. -/
theorem Along.preserves {I : σ → Prop}
    (step : ∀ s a t, I s → ok s a → m.step s a = some t → I t)
    {s t : σ} {as : List α} (run : m.Along ok s as t) (start : I s) : I t := by
  induction run with
  | nil s => exact start
  | cons met next _ ih => exact ih (step _ _ _ start met next)

/-- A reflexive and transitive relation that every step respects relates the ends of a run. -/
theorem Along.relates {I : σ → Prop} {R : σ → σ → Prop} (refl : ∀ s, R s s)
    (trans : ∀ s t u, R s t → R t u → R s u)
    (kept : ∀ s a t, I s → ok s a → m.step s a = some t → I t)
    (step : ∀ s a t, I s → ok s a → m.step s a = some t → R s t)
    {s t : σ} {as : List α} (run : m.Along ok s as t) (start : I s) : R s t := by
  induction run with
  | nil s => exact refl s
  | cons met next _ ih =>
    exact trans _ _ _ (step _ _ _ start met next) (ih (kept _ _ _ start met next))

theorem Reachable.init {s : σ} (start : m.init s) : m.Reachable ok s := ⟨s, [], start, .nil s⟩

theorem Reachable.along {s t : σ} {as : List α} (reached : m.Reachable ok s)
    (run : m.Along ok s as t) : m.Reachable ok t := by
  obtain ⟨s₀, bs, start, first⟩ := reached
  exact ⟨s₀, bs ++ as, start, first.append run⟩

theorem Reachable.step {s t : σ} {a : α} (reached : m.Reachable ok s) (met : ok s a)
    (next : m.step s a = some t) : m.Reachable ok t :=
  reached.along (.cons met next (.nil t))

/-- An invariant: it holds initially and every step that meets `ok` preserves it. -/
theorem Reachable.invariant {I : σ → Prop} (init : ∀ s, m.init s → I s)
    (step : ∀ s a t, I s → ok s a → m.step s a = some t → I t)
    {t : σ} (reached : m.Reachable ok t) : I t := by
  obtain ⟨s, as, start, run⟩ := reached
  exact run.preserves step (init s start)

end Machine

end Transition
