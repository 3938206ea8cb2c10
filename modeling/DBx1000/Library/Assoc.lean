import Mathlib.Order.Lattice
import Mathlib.Data.List.Basic

/-!
# Maps as lists in key order

A map as the list of its pairs, in the order of their keys. The operations are written with
filters, so that they say what they keep; on a list that a key divides, `put` and `erase` act at
the place of the key.
-/

namespace Assoc

variable {κ ν : Type*} [LinearOrder κ]

/-- Each key occurs once, and the keys increase. -/
def Ascending (es : List (κ × ν)) : Prop := es.Pairwise fun e f => e.1 < f.1

def put (k : κ) (v : ν) (es : List (κ × ν)) : List (κ × ν) :=
  es.filter (·.1 < k) ++ (k, v) :: es.filter (k < ·.1)

def erase (k : κ) (es : List (κ × ν)) : List (κ × ν) := es.filter (·.1 ≠ k)

def find (k : κ) (es : List (κ × ν)) : Option ν := (es.find? (·.1 = k)).map Prod.snd

/-- The pairs from a key on. -/
def since (k : κ) (es : List (κ × ν)) : List (κ × ν) := es.filter (k ≤ ·.1)

variable {k k' : κ} {v w : ν} {es p q : List (κ × ν)} {e : κ × ν}

/-! ### At the place of a key -/

theorem filter_before (before : ∀ e ∈ p, e.1 < k) (behind : ∀ e ∈ q, k < e.1) :
    p.filter (·.1 < k) = p ∧ q.filter (·.1 < k) = [] ∧ p.filter (k < ·.1) = [] ∧
      q.filter (k < ·.1) = q := by
  refine ⟨?_, ?_, ?_, ?_⟩
  · exact List.filter_eq_self.mpr fun e he => decide_eq_true (before e he)
  · exact List.filter_eq_nil_iff.mpr fun e he => by simpa using (behind e he).le
  · exact List.filter_eq_nil_iff.mpr fun e he => by simpa using (before e he).le
  · exact List.filter_eq_self.mpr fun e he => decide_eq_true (behind e he)

theorem put_new (before : ∀ e ∈ p, e.1 < k) (behind : ∀ e ∈ q, k < e.1) :
    put k v (p ++ q) = p ++ (k, v) :: q := by
  obtain ⟨h₁, h₂, h₃, h₄⟩ := filter_before before behind
  simp only [put, List.filter_append, h₁, h₂, h₃, h₄, List.append_nil, List.nil_append]

/-- A key that is there divides the list. -/
theorem Ascending.around (sorted : Ascending (p ++ e :: q)) :
    (∀ f ∈ p, f.1 < e.1) ∧ ∀ f ∈ q, e.1 < f.1 := by
  obtain ⟨-, behind, before⟩ := List.pairwise_append.mp sorted
  exact ⟨fun f hf => before f hf e List.mem_cons_self, (List.pairwise_cons.mp behind).1⟩

theorem put_there (sorted : Ascending (p ++ (k, w) :: q)) :
    put k v (p ++ (k, w) :: q) = p ++ (k, v) :: q := by
  obtain ⟨before, behind⟩ := sorted.around
  obtain ⟨h₁, h₂, h₃, h₄⟩ := filter_before before behind
  simp [put, List.filter_append, h₁, h₂, h₃, h₄]

theorem erase_there (sorted : Ascending (p ++ (k, w) :: q)) :
    erase k (p ++ (k, w) :: q) = p ++ q := by
  obtain ⟨before, behind⟩ := sorted.around
  have left : p.filter (·.1 ≠ k) = p :=
    List.filter_eq_self.mpr fun e he => decide_eq_true (before e he).ne
  have right : q.filter (·.1 ≠ k) = q :=
    List.filter_eq_self.mpr fun e he => decide_eq_true (behind e he).ne'
  simp only [erase, List.filter_append, left, List.filter_cons, right]
  simp

theorem find_there (sorted : Ascending (p ++ (k, w) :: q)) :
    find k (p ++ (k, w) :: q) = some w := by
  have none : p.find? (·.1 = k) = none :=
    List.find?_eq_none.mpr fun e he => by simpa using (sorted.around.1 e he).ne
  simp [find, List.find?_append, none]

theorem find_none (absent : k ∉ es.map Prod.fst) : find k es = none := by
  have none : es.find? (·.1 = k) = none := by
    refine List.find?_eq_none.mpr fun e he => ?_
    have ne : e.1 ≠ k := fun eq => absent (eq ▸ List.mem_map_of_mem he)
    simpa using ne
  rw [find, none, Option.map_none]

theorem find_eq_some (sorted : Ascending es) (mem : (k, v) ∈ es) : find k es = some v := by
  obtain ⟨p, q, rfl⟩ := List.append_of_mem mem
  exact find_there sorted

theorem mem_of_find (h : find k es = some v) : (k, v) ∈ es := by
  obtain ⟨e, he, rfl⟩ := Option.map_eq_some_iff.mp h
  have isKey : e.1 = k := by simpa using List.find?_some he
  exact isKey ▸ List.mem_of_find?_eq_some he

/-! ### What the operations keep -/

theorem Ascending.put (sorted : Ascending es) : Ascending (put k v es) := by
  refine List.pairwise_append.mpr ⟨sorted.filter _, ?_, fun e he f hf => ?_⟩
  · refine List.pairwise_cons.mpr ⟨fun f hf => ?_, sorted.filter _⟩
    simpa using (List.mem_filter.mp hf).2
  · have lt : e.1 < k := by simpa using (List.mem_filter.mp he).2
    rcases List.mem_cons.mp hf with rfl | hf
    · exact lt
    · have lt' : k < f.1 := by simpa using (List.mem_filter.mp hf).2
      exact lt.trans lt'

theorem Ascending.revalue (sorted : Ascending (p ++ (k, w) :: q)) : Ascending (p ++ (k, v) :: q) :=
  put_there (v := v) sorted ▸ sorted.put

theorem Ascending.erase (sorted : Ascending es) : Ascending (erase k es) := sorted.filter _

theorem mem_put : e ∈ put k v es ↔ e = (k, v) ∨ e ∈ es ∧ e.1 ≠ k := by
  simp only [put, List.mem_append, List.mem_cons, List.mem_filter, decide_eq_true_eq]
  constructor
  · rintro (⟨mem, lt⟩ | rfl | ⟨mem, lt⟩)
    · exact .inr ⟨mem, lt.ne⟩
    · exact .inl rfl
    · exact .inr ⟨mem, lt.ne'⟩
  · rintro (rfl | ⟨mem, ne⟩)
    · exact .inr (.inl rfl)
    · rcases lt_or_gt_of_ne ne with lt | gt
      · exact .inl ⟨mem, lt⟩
      · exact .inr (.inr ⟨mem, gt⟩)

theorem length_put_le : (put k v es).length ≤ es.length + 1 := by
  have parts := List.length_eq_length_filter_add (l := es) (fun e => decide (e.1 < k))
  have behind : (es.filter (k < ·.1)).length ≤ (es.filter fun e => !decide (e.1 < k)).length := by
    refine (List.monotone_filter_right es fun e lt => ?_).length_le
    simpa using (of_decide_eq_true lt).le
  simp only [put, List.length_append, List.length_cons]
  omega

theorem length_erase_le : (erase k es).length ≤ es.length := List.length_filter_le _ es

/-! ### Other keys and values -/

section Map

variable {κ' ν' : Type*} [LinearOrder κ'] {f : κ → κ'} {g : ν → ν'}

theorem put_map (mono : ∀ a b, f a < f b ↔ a < b) (k : κ) (v : ν) (es : List (κ × ν)) :
    put (f k) (g v) (es.map (Prod.map f g)) = (put k v es).map (Prod.map f g) := by
  have before : (fun e : κ' × ν' => decide (e.1 < f k)) ∘ Prod.map f g =
      fun e => decide (e.1 < k) := by
    funext e
    exact decide_eq_decide.mpr (mono e.1 k)
  have behind : (fun e : κ' × ν' => decide (f k < e.1)) ∘ Prod.map f g =
      fun e => decide (k < e.1) := by
    funext e
    exact decide_eq_decide.mpr (mono k e.1)
  rw [put, put, List.filter_map, List.filter_map, before, behind, List.map_append, List.map_cons,
    Prod.map_apply]

theorem find_map (mono : ∀ a b, f a < f b ↔ a < b) (k : κ) (es : List (κ × ν)) :
    find (f k) (es.map (Prod.map f g)) = (find k es).map g := by
  have inj : ∀ a, f a = f k ↔ a = k := by
    intro a
    refine ⟨fun eq => ?_, congrArg f⟩
    rcases lt_trichotomy a k with lt | same | gt
    · exact absurd eq ((mono a k).mpr lt).ne
    · exact same
    · exact absurd eq ((mono k a).mpr gt).ne'
  have key : (fun e : κ' × ν' => decide (e.1 = f k)) ∘ Prod.map f g =
      fun e => decide (e.1 = k) := by
    funext e
    exact decide_eq_decide.mpr (inj e.1)
  rw [find, find, List.find?_map, key, Option.map_map, Option.map_map]
  rfl

theorem since_map (mono : ∀ a b, f a < f b ↔ a < b) (k : κ) (es : List (κ × ν)) :
    since (f k) (es.map (Prod.map f g)) = (since k es).map (Prod.map f g) := by
  have from_k : (fun e : κ' × ν' => decide (f k ≤ e.1)) ∘ Prod.map f g =
      fun e => decide (k ≤ e.1) := by
    funext e
    refine decide_eq_decide.mpr ?_
    rw [Prod.map_fst, ← not_lt, mono, not_lt]
  rw [since, since, List.filter_map, from_k]

end Map

end Assoc
