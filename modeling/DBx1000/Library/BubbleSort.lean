import Mathlib.Algebra.Order.Ring.Nat
import Mathlib.Data.List.Perm.Basic
import Mathlib.Order.Defs.LinearOrder

/-!
# Bubble sort on arrays

The passes over a shrinking front part of an array, for any comparison of neighbours. By a key
the array becomes sorted, and entries with the same key keep their order.
-/

namespace BubbleSort

variable {α : Type*} (after : α → α → Bool)

/-- One pass: the first `n` neighbours are compared and exchanged where they are out of order. -/
def pass : Nat → List α → List α
  | n + 1, a :: b :: rest =>
    if after a b then b :: pass n (a :: rest) else a :: pass n (b :: rest)
  | _, as => as

/-- The passes for `i`, `i - 1`, ..., `1`. -/
def passes : Nat → List α → List α
  | 0, as => as
  | i + 1, as => passes i (pass after (i + 1) as)

/-- The passes for an array, from its last index on. -/
def sort (as : List α) : List α := passes after (as.length - 1) as

theorem perm_pass (n : Nat) (as : List α) : (pass after n as).Perm as := by
  induction n generalizing as with
  | zero => rw [pass]; simp
  | succ n ih =>
    match as with
    | [] => rw [pass]; simp
    | [a] => rw [pass]; simp
    | a :: b :: rest =>
      rw [pass]
      split
      · exact ((ih _).cons b).trans (List.Perm.swap a b rest)
      · exact (ih _).cons a

theorem perm_passes (n : Nat) (as : List α) : (passes after n as).Perm as := by
  induction n generalizing as with
  | zero => exact .refl as
  | succ n ih => exact (ih _).trans (perm_pass after _ as)

theorem perm_sort (as : List α) : (sort after as).Perm as := perm_passes after _ as

/-! ### Maps -/

section Map

variable {β : Type*} {after' : β → β → Bool} (f : α → β)

theorem map_pass (same : ∀ a b, after a b = after' (f a) (f b)) (n : Nat) (as : List α) :
    (pass after n as).map f = pass after' n (as.map f) := by
  induction n generalizing as with
  | zero => simp [pass]
  | succ n ih =>
    match as with
    | [] => simp [pass]
    | [a] => simp [pass]
    | a :: b :: rest =>
      rw [pass, List.map_cons, List.map_cons, pass, same]
      split
      · rw [List.map_cons, ih, List.map_cons]
      · rw [List.map_cons, ih, List.map_cons]

/-- The sort of the images, if they decide the comparison. -/
theorem map_sort (same : ∀ a b, after a b = after' (f a) (f b)) (as : List α) :
    (sort after as).map f = sort after' (as.map f) := by
  have passes_ (n : Nat) (as : List α) : (passes after n as).map f = passes after' n (as.map f) := by
    induction n generalizing as with
    | zero => rfl
    | succ n ih =>
      rw [passes, passes, ih, map_pass after f same]
  rw [sort, sort, passes_, List.length_map]

end Map

/-! ### Sorting by a key -/

section Key

variable {κ : Type*} [LinearOrder κ] (key : α → κ)

/-- The entries with a greater key come after those with a smaller one. -/
abbrev byKey (a b : α) : Bool := decide (key a > key b)

/-- A pass does not exchange entries with the same key. -/
theorem filter_pass (k : κ) (n : Nat) (as : List α) :
    (pass (byKey key) n as).filter (key · = k) = as.filter (key · = k) := by
  induction n generalizing as with
  | zero => simp [pass]
  | succ n ih =>
    match as with
    | [] => simp [pass]
    | [a] => simp [pass]
    | a :: b :: rest =>
      rw [pass]
      split
      · next gt =>
        -- two entries that are exchanged have different keys
        have gt : key b < key a := by simpa using gt
        rw [List.filter_cons, ih]
        by_cases hb : key b = k
        · have ha : key a ≠ k := fun ha => absurd gt (by rw [ha, hb]; exact lt_irrefl k)
          simp [hb, ha]
        · simp [hb, List.filter_cons]
      · rw [List.filter_cons, ih]
        simp [List.filter_cons]

/-- The sort is stable. -/
theorem filter_sort (k : κ) (as : List α) :
    (sort (byKey key) as).filter (key · = k) = as.filter (key · = k) := by
  have passes_ (n : Nat) (as : List α) :
      (passes (byKey key) n as).filter (key · = k) = as.filter (key · = k) := by
    induction n generalizing as with
    | zero => rfl
    | succ n ih => rw [passes, ih, filter_pass]
  exact passes_ _ as

/-- A pass takes the greatest of the entries that it visits behind the others. -/
theorem pass_max {n : Nat} {a : α} {as : List α} (le : n ≤ as.length) :
    ∃ front max, pass (byKey key) n (a :: as) = front ++ max :: as.drop n ∧
      (front ++ [max]).Perm (a :: as.take n) ∧ ∀ b ∈ front, key b ≤ key max := by
  induction n generalizing a as with
  | zero => exact ⟨[], a, by simp [pass], by simp, nofun⟩
  | succ n ih =>
    match as with
    | [] => exact absurd le (Nat.not_succ_le_zero n)
    | b :: as =>
      have le : n ≤ as.length := Nat.le_of_succ_le_succ le
      rw [pass]
      split
      · next gt =>
        have gt : key b < key a := by simpa using gt
        obtain ⟨front, max, eq, perm, least⟩ := ih (a := a) le
        refine ⟨b :: front, max, by rw [eq]; simp, ?_, fun c hc => ?_⟩
        · exact (perm.cons b).trans (List.Perm.swap a b _)
        · rcases List.mem_cons.mp hc with rfl | hc
          · -- the greater one of the two is still among those that follow
            have mem : a ∈ front ++ [max] := perm.mem_iff.mpr List.mem_cons_self
            rcases List.mem_append.mp mem with mem | mem
            · exact le_trans (le_of_lt gt) (least a mem)
            · rw [List.mem_singleton.mp mem] at gt
              exact le_of_lt gt
          · exact least c hc
      · next ge =>
        have ge : key a ≤ key b := by simpa using ge
        obtain ⟨front, max, eq, perm, least⟩ := ih (a := b) le
        refine ⟨a :: front, max, by rw [eq]; simp, perm.cons a, fun c hc => ?_⟩
        rcases List.mem_cons.mp hc with rfl | hc
        · have mem : b ∈ front ++ [max] := perm.mem_iff.mpr List.mem_cons_self
          rcases List.mem_append.mp mem with mem | mem
          · exact le_trans ge (least b mem)
          · rw [List.mem_singleton.mp mem] at ge
            exact ge
        · exact least c hc

/-- The passes sort the front part of an array whose rest is sorted and not smaller. -/
theorem sorted_passes {i : Nat} {as : List α} (lt : i < as.length)
    (rest : (as.drop (i + 1)).Pairwise (key · ≤ key ·))
    (above : ∀ a ∈ as.take (i + 1), ∀ b ∈ as.drop (i + 1), key a ≤ key b) :
    (passes (byKey key) i as).Pairwise (key · ≤ key ·) := by
  induction i generalizing as with
  | zero =>
    match as with
    | [] => exact absurd lt (Nat.not_lt_zero 0)
    | a :: as => exact List.pairwise_cons.mpr ⟨fun b hb => above a (by simp) b (by simpa using hb), by simpa using rest⟩
  | succ i ih =>
    match as with
    | [] => exact absurd lt (Nat.not_lt_zero _)
    | a :: as =>
      have le : i + 1 ≤ as.length := Nat.le_of_lt_succ lt
      obtain ⟨front, max, eq, perm, greatest⟩ := pass_max key (a := a) le
      have length : front.length = i + 1 := by
        have := perm.length_eq
        rw [List.length_append, List.length_singleton, List.length_cons, List.length_take,
          Nat.min_eq_left le] at this
        exact Nat.succ.inj this
      have old (b : α) (hb : b ∈ front ++ [max]) : ∀ c ∈ as.drop (i + 1), key b ≤ key c := by
        refine fun c hc => above b ?_ c (by simpa using hc)
        rw [List.take_succ_cons]
        exact perm.mem_iff.mp hb
      rw [passes, eq]
      refine ih ?_ ?_ fun b hb c hc => ?_
      · rw [List.length_append, length]
        omega
      · rw [List.drop_left' length]
        exact List.pairwise_cons.mpr ⟨old max (by simp), by simpa using rest⟩
      · rw [List.drop_left' length] at hc
        rw [List.take_left' length] at hb
        rcases List.mem_cons.mp hc with rfl | hc
        · exact greatest b hb
        · exact old b (List.mem_append_left _ hb) c hc

theorem sorted_sort (as : List α) : (sort (byKey key) as).Pairwise (key · ≤ key ·) := by
  match as with
  | [] => exact List.Pairwise.nil
  | a :: as =>
    apply sorted_passes key
    · exact Nat.lt_succ_self _
    · simp
    · simp

/-- Where two entries come in the sorted array. -/
theorem sort_before {as : List α} {a b : α} (before : [a, b].Sublist (sort (byKey key) as)) :
    key a < key b ∨ key a = key b ∧ [a, b].Sublist as := by
  rcases lt_or_eq_of_le (List.pairwise_iff_forall_sublist.mp (sorted_sort key as) before) with lt | eq
  · exact .inl lt
  · have same := before.filter (key · = key b)
    rw [filter_sort, List.filter_eq_self.mpr (by simp [eq])] at same
    exact .inr ⟨eq, same.trans List.filter_sublist⟩

theorem before_sort {as : List α} {a b : α} (before : [a, b].Sublist as) (eq : key a = key b) :
    [a, b].Sublist (sort (byKey key) as) := by
  have same := before.filter (key · = key b)
  rw [List.filter_eq_self.mpr (by simp [eq]), ← filter_sort key (key b) as] at same
  exact same.trans List.filter_sublist

end Key

end BubbleSort
