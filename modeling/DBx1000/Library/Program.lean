import Mathlib.Logic.Relation

/-!
# Programs over atomic operations

A program calls operations one after another and goes on with what they return. What an
operation does to a state, and returns, is a parameter, so one text of a program has two
readings: `run` executes it alone, and a machine may put steps of others between its calls.
Loops are recursions on a fuel, and a program that has used it up is `spent`.

`Ends` is total correctness of a program that runs alone. `Safe` is for a program among
others, whose calls alternate with the steps of others (`Step`): in any state that the others'
steps `rely` lead to, each call meets a demand.
-/

namespace Program

variable {O : Type} {R : O → Type} {σ : Type*} {α β : Type}

inductive Prog (R : O → Type) (α : Type)
  | done (a : α)
  | call (o : O) (next : R o → Prog R α)
  | spent
  /-- An assertion does not hold. -/
  | failed

namespace Prog

def bind : Prog R α → (α → Prog R β) → Prog R β
  | done a, f => f a
  | call o next, f => call o fun r => (next r).bind f
  | spent, _ => spent
  | failed, _ => failed

instance : Monad (Prog R) where
  pure := done
  bind := bind

def op (o : O) : Prog R (R o) := call o done

def assert (p : Prop) [Decidable p] : Prog R Unit := if p then pure () else failed

/-- Executes a program alone. -/
def run (exec : (o : O) → σ → R o × σ) : Prog R α → σ → Option (α × σ)
  | done a, s => some (a, s)
  | call o next, s => (next (exec o s).1).run exec (exec o s).2
  | spent, _ | failed, _ => none

/-! ### Total correctness -/

/-- Run alone, the program ends, with a result and in a state as demanded. -/
def Ends (exec : (o : O) → σ → R o × σ) : Prog R α → (α → σ → Prop) → σ → Prop
  | done a, Q, s => Q a s
  | call o next, Q, s => (next (exec o s).1).Ends exec Q (exec o s).2
  | spent, _, _ | failed, _, _ => False

section Ends

variable {exec : (o : O) → σ → R o × σ} {p : Prog R α} {Q Q' : α → σ → Prop} {s : σ}

theorem ends_iff : p.Ends exec Q s ↔ ∃ a t, p.run exec s = some (a, t) ∧ Q a t := by
  induction p generalizing s with
  | done a => exact ⟨fun h => ⟨a, s, rfl, h⟩, fun ⟨_, _, h, q⟩ => by cases h; exact q⟩
  | call o next ih => exact ih _
  | spent => exact ⟨False.elim, fun ⟨_, _, h, _⟩ => by cases h⟩
  | failed => exact ⟨False.elim, fun ⟨_, _, h, _⟩ => by cases h⟩

@[simp] theorem ends_pure {a : α} : (pure a : Prog R α).Ends exec Q s ↔ Q a s := Iff.rfl

@[simp] theorem ends_op {o : O} {Q : R o → σ → Prop} :
    (op o : Prog R (R o)).Ends exec Q s ↔ Q (exec o s).1 (exec o s).2 := Iff.rfl

@[simp] theorem ends_bind {f : α → Prog R β} {Q : β → σ → Prop} :
    (p >>= f).Ends exec Q s ↔ p.Ends exec (fun a t => (f a).Ends exec Q t) s := by
  change (p.bind f).Ends exec Q s ↔ _
  induction p generalizing s with
  | done a => rfl
  | call o next ih => exact ih _
  | spent => rfl
  | failed => rfl

@[simp] theorem ends_assert {c : Prop} [Decidable c] {Q : Unit → σ → Prop} :
    (assert c : Prog R Unit).Ends exec Q s ↔ c ∧ Q () s := by
  unfold assert
  split
  · next h => exact ⟨fun q => ⟨h, q⟩, And.right⟩
  · next h => exact ⟨False.elim, fun q => h q.1⟩

theorem Ends.mono (h : p.Ends exec Q s) (sub : ∀ a t, Q a t → Q' a t) : p.Ends exec Q' s := by
  induction p generalizing s with
  | done a => exact sub a s h
  | call o next ih => exact ih _ h
  | spent => exact h
  | failed => exact h

end Ends

/-! ### Programs among others -/

/-- A call of the program, or a step of others. -/
inductive Step (exec : (o : O) → σ → R o × σ) (others : σ → σ → Prop) :
    Prog R α × σ → Prog R α × σ → Prop
  | call (o : O) (next : R o → Prog R α) (s : σ) :
    Step exec others (call o next, s) (next (exec o s).1, (exec o s).2)
  | others (p : Prog R α) {s t : σ} (st : others s t) : Step exec others (p, s) (p, t)

/-- In every state that others lead to, each call of an operation meets `demand`, if the steps
of the program meet `ok`. -/
def Safe (exec : (o : O) → σ → R o × σ) (rely : σ → σ → Prop) (ok demand : (o : O) → σ → Prop) :
    Prog R α → (α → σ → Prop) → σ → Prop
  | done a, Q, s => ∀ t, rely s t → Q a t
  | call o next, Q, s => ∀ t, rely s t → ok o t →
      demand o t ∧ (next (exec o t).1).Safe exec rely ok demand Q (exec o t).2
  | spent, _, _ | failed, _, _ => True

section Safe

variable {exec : (o : O) → σ → R o × σ} {rely : σ → σ → Prop} {ok demand : (o : O) → σ → Prop}
  {p : Prog R α} {Q Q' : α → σ → Prop} {s t : σ}

theorem Safe.after (trans : ∀ s t u, rely s t → rely t u → rely s u)
    (h : p.Safe exec rely ok demand Q s) (st : rely s t) : p.Safe exec rely ok demand Q t := by
  cases p with
  | done a => exact fun u tu => h u (trans _ _ _ st tu)
  | call o next => exact fun u tu met => h u (trans _ _ _ st tu) met
  | spent => trivial
  | failed => trivial

theorem Safe.mono (h : p.Safe exec rely ok demand Q s) (sub : ∀ a t, Q a t → Q' a t) :
    p.Safe exec rely ok demand Q' s := by
  induction p generalizing s with
  | done a => exact fun t st => sub a t (h t st)
  | call o next ih => exact fun t st met => ⟨(h t st met).1, ih _ (h t st met).2⟩
  | spent => trivial
  | failed => trivial

theorem Safe.bind (refl : ∀ s, rely s s) {f : α → Prog R β} {Q : β → σ → Prop}
    (h : p.Safe exec rely ok demand (fun a t => (f a).Safe exec rely ok demand Q t) s) :
    (p >>= f).Safe exec rely ok demand Q s := by
  change (p.bind f).Safe exec rely ok demand Q s
  induction p generalizing s with
  | done a => exact h s (refl s)
  | call o next ih => exact fun t st met => ⟨(h t st met).1, ih _ (h t st met).2⟩
  | spent => trivial
  | failed => trivial

/-- A call of a safe program meets the demand, and what follows is safe. -/
theorem Safe.called (refl : ∀ s, rely s s) {o : O} {next : R o → Prog R α}
    (h : (call o next).Safe exec rely ok demand Q s) (met : ok o s) :
    demand o s ∧ (next (exec o s).1).Safe exec rely ok demand Q (exec o s).2 :=
  h s (refl s) met

/-- One operation among others: a stable fact before it, the demand and what it gives. -/
theorem safe_op {P : σ → Prop} {o : O} {Q : R o → σ → Prop}
    (stable : ∀ s t, rely s t → P s → P t) (after : ∀ r s t, rely s t → Q r s → Q r t)
    (meets : ∀ t, P t → ok o t → demand o t ∧ Q (exec o t).1 (exec o t).2) (h : P s) :
    (op o : Prog R (R o)).Safe exec rely ok demand Q s := by
  intro t st met
  have ⟨demanded, gives⟩ := meets t (stable s t st h) met
  exact ⟨demanded, fun u tu => after _ _ u tu gives⟩

end Safe

end Prog

end Program
