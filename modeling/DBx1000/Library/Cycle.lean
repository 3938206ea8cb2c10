import Mathlib.Data.List.Chain
import Mathlib.Data.List.Nodup
import Mathlib.Logic.Relation

/-!
# Cycles of a relation

A cycle is given by the list of its vertices, none of them twice. What a depth-first search
has left behind is a set that no edge leaves and in which there is no cycle.
-/

namespace Cycle

open Relation

variable {α : Type*} (r : α → α → Prop)

/-- The vertices of a cycle, in its order. -/
def IsCycle : List α → Prop
  | [] => False
  | a :: l => List.IsChain r (a :: (l ++ [a])) ∧ (a :: l).Nodup

/-- No edge leaves the set, and no vertex of it is on a cycle. -/
def Settled (s : α → Prop) : Prop :=
  ∀ v, s v → (∀ w, r v w → s w) ∧ ¬ TransGen r v v

variable {r}

/-- All that stands in a chain is reached from its head. -/
theorem reflTransGen_of_mem_chain {a b : α} {l : List α} (chain : List.IsChain r (a :: l))
    (hb : b ∈ a :: l) : ReflTransGen r a b := by
  induction l generalizing a with
  | nil =>
    rw [List.mem_singleton] at hb
    rw [hb]
  | cons c l ih =>
    rw [List.isChain_cons_cons] at chain
    rcases List.mem_cons.mp hb with rfl | hb
    · exact ReflTransGen.refl
    · exact ReflTransGen.head chain.1 (ih chain.2 hb)

/-- In a chain of at least two vertices the last one is reached by a step or more. -/
theorem transGen_of_chain {a b : α} {l : List α} (chain : List.IsChain r (a :: (l ++ [b]))) :
    TransGen r a b := by
  cases l with
  | nil => exact TransGen.single (List.isChain_cons_cons.mp chain).1
  | cons c l =>
    have ⟨first, rest⟩ := List.isChain_cons_cons.mp chain
    exact TransGen.head' first (reflTransGen_of_mem_chain rest (by simp))

/-- Some vertex of a cycle comes back to itself. -/
theorem IsCycle.transGen {l : List α} (h : IsCycle r l) : ∃ a ∈ l, TransGen r a a := by
  cases l with
  | nil => exact h.elim
  | cons a l => exact ⟨a, List.mem_cons_self, transGen_of_chain h.1⟩

namespace Settled

variable {s : α → Prop}

theorem reflTransGen (h : Settled r s) {v w : α} (hv : s v) (reach : ReflTransGen r v w) :
    s w := by
  induction reach with
  | refl => exact hv
  | tail _ step ih => exact (h _ ih).1 _ step

theorem transGen (h : Settled r s) {v w : α} (hv : s v) (reach : TransGen r v w) : s w :=
  h.reflTransGen hv reach.to_reflTransGen

/-- A vertex all of whose successors are settled can be settled too. -/
theorem insert (h : Settled r s) {u : α} (succ : ∀ w, r u w → s w) (fresh : ¬ s u) :
    Settled r fun v => v = u ∨ s v := by
  intro v hv
  rcases hv with rfl | hv
  · constructor
    · intro w hw
      exact .inr (succ w hw)
    · intro cycle
      -- the cycle goes into the settled set and does not come back
      obtain ⟨w, first, rest⟩ := TransGen.head'_iff.mp cycle
      exact fresh (h.reflTransGen (succ w first) rest)
  · exact ⟨fun w hw => .inr ((h v hv).1 w hw), (h v hv).2⟩

/-- From a settled vertex no cycle is reached. -/
theorem no_cycle (h : Settled r s) {v : α} (hv : s v) {l : List α} (cycle : IsCycle r l)
    (reach : ∀ w ∈ l, ReflTransGen r v w) : False := by
  obtain ⟨a, ha, back⟩ := cycle.transGen
  exact (h a (h.reflTransGen hv (reach a ha))).2 back

end Settled

end Cycle
