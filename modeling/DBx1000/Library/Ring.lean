import Mathlib.Data.List.Basic
import Mathlib.Data.Nat.ModEq
import Mathlib.Logic.Function.Basic

/-!
# Circular buffers

A window of a circular buffer: the list of the cells from an index on, across the end of the
buffer. The rules say what dropping cells at the front, changing cells and moving the buffer
do to the window.
-/

namespace Ring

variable {α : Type*}

/-- The cells from `first` on, modulo `cap`, are the list `vs`. -/
structure Window (cap : Nat) (cells : Nat → α) (first : Nat) (vs : List α) : Prop where
  first_lt : first < cap
  fits : vs.length ≤ cap
  get : ∀ i, i < vs.length → vs[i]? = some (cells ((first + i) % cap))

variable {cap first : Nat} {cells : Nat → α} {vs : List α} {i j : Nat}

theorem slot_inj (hi : i < cap) (hj : j < cap) (same : (first + i) % cap = (first + j) % cap) :
    i = j := by
  have := Nat.ModEq.add_left_cancel' first same
  rwa [Nat.ModEq, Nat.mod_eq_of_lt hi, Nat.mod_eq_of_lt hj] at this

theorem succ_slot : ((first + i) % cap + 1) % cap = (first + (i + 1)) % cap := by
  rw [Nat.mod_add_mod, Nat.add_assoc]

theorem slot_zero (lt : first < cap) : (first + 0) % cap = first := Nat.mod_eq_of_lt lt

/-- The cell in front of a cell. -/
theorem pred_succ_slot {k : Nat} (lt : k < cap) :
    (if (k + 1) % cap = 0 then cap - 1 else (k + 1) % cap - 1) = k := by
  rcases Nat.lt_or_eq_of_le (Nat.succ_le_of_lt lt) with more | last
  · rw [Nat.mod_eq_of_lt more, if_neg (Nat.succ_ne_zero k)]
    rfl
  · rw [show (k + 1) % cap = 0 by rw [← last]; exact Nat.mod_self _, if_pos rfl, ← last]
    rfl

/-- The cells from `first` to `last`, across the end of the buffer. -/
def between (cap : Nat) (cells : Nat → α) (first last : Nat) : List α :=
  (List.range ((last + cap - first) % cap + 1)).map fun i => cells ((first + i) % cap)

/-- How far an index is from the first one. -/
theorem distance {k : Nat} (lt : first < cap) (hk : k < cap) :
    ((first + k) % cap + cap - first) % cap = k := by
  rcases Nat.lt_or_ge (first + k) cap with fits | wraps
  · rw [Nat.mod_eq_of_lt fits, show first + k + cap - first = k + cap by omega, Nat.add_mod_right,
      Nat.mod_eq_of_lt hk]
  · have slot : (first + k) % cap = first + k - cap := by
      rw [Nat.mod_eq_sub_mod wraps]
      exact Nat.mod_eq_of_lt (by omega)
    rw [slot, show first + k - cap + cap - first = k by omega, Nat.mod_eq_of_lt hk]

namespace Window

/-- The window is what lies between its ends. -/
theorem between_eq (h : Window cap cells first vs) (ne : 0 < vs.length) :
    between cap cells first ((first + (vs.length - 1)) % cap) = vs := by
  have fits := h.fits
  rw [between, distance h.first_lt (by omega), Nat.sub_add_cancel ne]
  apply List.ext_getElem?
  intro i
  rw [List.getElem?_map]
  rcases Nat.lt_or_ge i vs.length with lt | ge
  · rw [List.getElem?_range lt, h.get i lt]
    rfl
  · rw [List.getElem?_eq_none ge, List.getElem?_eq_none (by rw [List.length_range]; exact ge)]
    rfl

theorem mem (h : Window cap cells first vs) (hi : i < vs.length) :
    cells ((first + i) % cap) ∈ vs :=
  List.mem_of_getElem? (h.get i hi)

theorem exists_of_mem (h : Window cap cells first vs) {v : α} (hv : v ∈ vs) :
    ∃ i, i < vs.length ∧ cells ((first + i) % cap) = v := by
  obtain ⟨i, hi, e⟩ := List.mem_iff_getElem.mp hv
  have := h.get i hi
  rw [List.getElem?_eq_getElem hi, e] at this
  exact ⟨i, hi, (Option.some.inj this).symm⟩

theorem head (h : Window cap cells first vs) (ne : 0 < vs.length) : vs.head? = some (cells first) := by
  rw [List.head?_eq_getElem?, h.get 0 ne, slot_zero h.first_lt]

theorem last (h : Window cap cells first vs) (ne : 0 < vs.length) :
    vs.getLast? = some (cells ((first + (vs.length - 1)) % cap)) := by
  rw [List.getLast?_eq_getElem?, h.get _ (by omega)]

theorem drop (h : Window cap cells first vs) {k : Nat} (le : k ≤ vs.length) :
    Window cap cells ((first + k) % cap) (vs.drop k) := by
  have pos : 0 < cap := Nat.lt_of_le_of_lt (Nat.zero_le _) h.first_lt
  refine ⟨Nat.mod_lt _ pos, ?_, fun i hi => ?_⟩
  · rw [List.length_drop]
    have := h.fits
    omega
  · rw [List.length_drop] at hi
    rw [List.getElem?_drop, h.get _ (by omega), Nat.mod_add_mod, Nat.add_assoc]

/-- A change of a cell behind the window. -/
theorem update_behind (h : Window cap cells first vs) {v : α} (le : vs.length ≤ j) (lt : j < cap) :
    Window cap (Function.update cells ((first + j) % cap) v) first vs := by
  refine ⟨h.first_lt, h.fits, fun i hi => ?_⟩
  rw [h.get i hi, Function.update_of_ne]
  intro same
  have := slot_inj (Nat.lt_of_lt_of_le hi h.fits) lt same
  omega

/-- A change of a cell of the window. -/
theorem update (h : Window cap cells first vs) {v : α} (hj : j < vs.length) :
    Window cap (Function.update cells ((first + j) % cap) v) first (vs.set j v) := by
  refine ⟨h.first_lt, by rw [List.length_set]; exact h.fits, fun i hi => ?_⟩
  rw [List.length_set] at hi
  rw [List.getElem?_set]
  split
  · next e =>
    rw [e, Function.update_self]
  · next ne =>
    rw [h.get i hi, Function.update_of_ne]
    intro same
    exact ne (slot_inj (Nat.lt_of_lt_of_le hi h.fits) (Nat.lt_of_lt_of_le hj h.fits) same).symm

/-- The window grows by the cell behind it. -/
theorem push (h : Window cap cells first vs) (room : vs.length < cap) :
    Window cap cells first (vs ++ [cells ((first + vs.length) % cap)]) := by
  refine ⟨h.first_lt, by rw [List.length_append]; exact room, fun i hi => ?_⟩
  rw [List.length_append, List.length_singleton] at hi
  rcases Nat.lt_or_eq_of_le (Nat.le_of_lt_succ hi) with lt | rfl
  · rw [List.getElem?_append_left lt, h.get i lt]
  · rw [List.getElem?_append_right (Nat.le_refl _), Nat.sub_self]
    rfl

/-- The cells move to the front of a buffer that is not smaller. -/
theorem unroll (h : Window cap cells first vs) {cap' : Nat} (le : cap ≤ cap') {cells' : Nat → α}
    (copy : ∀ i, i < cap → cells' i = cells ((first + i) % cap)) : Window cap' cells' 0 vs := by
  have pos : 0 < cap := Nat.lt_of_le_of_lt (Nat.zero_le _) h.first_lt
  refine ⟨Nat.lt_of_lt_of_le pos le, Nat.le_trans h.fits le, fun i hi => ?_⟩
  have lt := Nat.lt_of_lt_of_le hi h.fits
  rw [h.get i hi, Nat.zero_add, Nat.mod_eq_of_lt (Nat.lt_of_lt_of_le lt le), copy i lt]

end Window

end Ring
