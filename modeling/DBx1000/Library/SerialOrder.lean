import Mathlib.Data.List.Induction
import Mathlib.Logic.Function.Basic

/-!
# Serial order by timestamps

A log lists transactions in the order of their commits; each carries a timestamp, what
it read and what it wrote. `serialOrder` arranges the log by timestamps, ties in commit
order, and `Replays` says that executing the transactions one by one in an order gives
every one of them the values that it read. `valueAt` is the value of a key after all
transactions up to a timestamp. The rules say what one more commit does to each of them.
-/

namespace SerialOrder

variable {κ V : Type*}

structure Entry (κ V : Type*) where
  time : Nat
  reads : List (κ × V)
  writes : List (κ × V)
  deriving DecidableEq

variable [DecidableEq κ]

/-- The store after the writes of a transaction. -/
def Entry.apply (e : Entry κ V) (store : κ → V) : κ → V :=
  e.writes.foldl (fun st w => Function.update st w.1 w.2) store

def after (store : κ → V) (order : List (Entry κ V)) : κ → V :=
  order.foldl (fun st e => e.apply st) store

/-- Each transaction reads what the transactions before it leave. -/
def Replays (store : κ → V) : List (Entry κ V) → Prop
  | [] => True
  | e :: order => (∀ r ∈ e.reads, store r.1 = r.2) ∧ Replays (e.apply store) order

omit [DecidableEq κ] in
/-- Puts a transaction behind all those with a timestamp that is not larger. -/
def place (e : Entry κ V) : List (Entry κ V) → List (Entry κ V)
  | [] => [e]
  | f :: order => if e.time < f.time then e :: f :: order else f :: place e order

/-- By timestamps, ties in the order of the log. -/
def serialOrder (log : List (Entry κ V)) : List (Entry κ V) :=
  log.foldl (fun order e => place e order) []

/-- The value of a key when the transactions up to time `c` are done. -/
def valueAt (store : κ → V) (order : List (Entry κ V)) (k : κ) (c : Nat) : V :=
  after store (order.filter (·.time ≤ c)) k

variable {store store' : κ → V} {order : List (Entry κ V)} {e : Entry κ V} {k : κ} {c : Nat}

def Entry.writesTo (e : Entry κ V) (k : κ) : Prop := ∃ w ∈ e.writes, w.1 = k

theorem apply_of_not_writesTo (none : ¬ e.writesTo k) : e.apply store k = store k := by
  unfold Entry.writesTo at none
  unfold Entry.apply
  generalize e.writes = writes at none ⊢
  induction writes generalizing store with
  | nil => rfl
  | cons w writes ih =>
    rw [List.foldl_cons, ih (fun ⟨w', hw', e⟩ => none ⟨w', List.mem_cons_of_mem _ hw', e⟩),
      Function.update_of_ne]
    exact fun e => none ⟨w, List.mem_cons_self, e.symm⟩

/-- The writes of a transaction do not depend on the store for the keys it writes. -/
theorem apply_congr (same : ¬ e.writesTo k → store k = store' k) :
    e.apply store k = e.apply store' k := by
  unfold Entry.writesTo at same
  unfold Entry.apply
  generalize e.writes = writes at same ⊢
  induction writes generalizing store store' with
  | nil => exact same (by simp)
  | cons w writes ih =>
    rw [List.foldl_cons, List.foldl_cons]
    refine ih fun none => ?_
    by_cases e : k = w.1
    · rw [e, Function.update_self, Function.update_self]
    · rw [Function.update_of_ne e, Function.update_of_ne e]
      refine same fun ⟨w', hw', e'⟩ => ?_
      rcases List.mem_cons.mp hw' with rfl | hw'
      · exact e e'.symm
      · exact none ⟨w', hw', e'⟩

theorem apply_of_mem {v : V} (mem : (k, v) ∈ e.writes) (single : (e.writes.map (·.1)).Nodup) :
    e.apply store k = v := by
  unfold Entry.apply
  generalize e.writes = writes at mem single ⊢
  induction writes generalizing store with
  | nil => cases mem
  | cons w writes ih =>
    rw [List.foldl_cons]
    rw [List.map_cons, List.nodup_cons] at single
    rcases List.mem_cons.mp mem with rfl | mem
    · have rest : ∀ st : κ → V, (⟨0, [], writes⟩ : Entry κ V).apply st k = st k := fun st =>
        apply_of_not_writesTo (e := ⟨0, [], writes⟩) fun ⟨w', hw', e'⟩ =>
          single.1 (List.mem_map.mpr ⟨w', hw', e'⟩)
      exact (rest _).trans (Function.update_self ..)
    · exact ih mem single.2

theorem after_append (front back : List (Entry κ V)) :
    after store (front ++ back) = after (after store front) back :=
  List.foldl_append ..

theorem after_congr (same : store k = store' k) : after store order k = after store' order k := by
  unfold after
  induction order generalizing store store' with
  | nil => exact same
  | cons f order ih => exact ih (apply_congr fun _ => same)

variable (store) in
theorem after_of_not_writesTo (none : ∀ f ∈ order, ¬ f.writesTo k) :
    after store order k = store k := by
  unfold after
  induction order generalizing store with
  | nil => rfl
  | cons f order ih =>
    rw [List.foldl_cons, ih _ fun g hg => none g (List.mem_cons_of_mem _ hg)]
    exact apply_of_not_writesTo (none f List.mem_cons_self)

theorem replays_append {front back : List (Entry κ V)} :
    Replays store (front ++ back) ↔ Replays store front ∧ Replays (after store front) back := by
  induction front generalizing store with
  | nil => simp [Replays, after]
  | cons f front ih =>
    rw [List.cons_append, Replays, Replays, ih, and_assoc]
    rfl

/-- Later transactions do not notice a change to keys that they do not read. -/
theorem Replays.congr (h : Replays store order) (changed : κ → Prop)
    (same : ∀ k, ¬ changed k → store k = store' k)
    (unread : ∀ f ∈ order, ∀ r ∈ f.reads, ¬ changed r.1) : Replays store' order := by
  induction order generalizing store store' with
  | nil => trivial
  | cons f order ih =>
    refine ⟨fun r hr => ?_, ?_⟩
    · rw [← same _ (unread f List.mem_cons_self r hr)]
      exact h.1 r hr
    · exact ih h.2 (fun k hk => apply_congr fun _ => same k hk)
        fun g hg => unread g (List.mem_cons_of_mem _ hg)

/-! ### One more commit -/

def Sorted (order : List (Entry κ V)) : Prop := order.Pairwise (·.time ≤ ·.time)

omit [DecidableEq κ] in
theorem place_eq (sorted : Sorted order) :
    place e order = order.filter (·.time ≤ e.time) ++ e :: order.filter (e.time < ·.time) := by
  induction order with
  | nil => rfl
  | cons f order ih =>
    rw [Sorted, List.pairwise_cons] at sorted
    rw [place]
    split
    · next lt =>
      have none : (f :: order).filter (·.time ≤ e.time) = [] := by
        rw [List.filter_eq_nil_iff]
        intro g hg
        rcases List.mem_cons.mp hg with rfl | hg
        · simpa using lt
        · have := sorted.1 g hg
          simp only [decide_eq_true_eq]
          omega
      have all : (f :: order).filter (e.time < ·.time) = f :: order := by
        rw [List.filter_eq_self]
        intro g hg
        rcases List.mem_cons.mp hg with rfl | hg
        · simpa using lt
        · have := sorted.1 g hg
          simp only [decide_eq_true_eq]
          omega
      rw [none, all]
      rfl
    · next ge =>
      rw [List.filter_cons_of_pos (by simpa using ge), List.filter_cons_of_neg (by simpa using ge),
        ih sorted.2]
      rfl

omit [DecidableEq κ] in
theorem mem_place {f : Entry κ V} : f ∈ place e order ↔ f = e ∨ f ∈ order := by
  induction order with
  | nil => simp [place]
  | cons g order ih =>
    rw [place]
    split
    · simp
    · rw [List.mem_cons, ih, List.mem_cons]
      tauto

omit [DecidableEq κ] in
theorem sorted_place (sorted : Sorted order) : Sorted (place e order) := by
  induction order with
  | nil => exact List.pairwise_singleton ..
  | cons f order ih =>
    rw [Sorted, List.pairwise_cons] at sorted
    rw [place]
    split
    · next lt =>
      refine List.pairwise_cons.mpr ⟨fun g hg => ?_, List.pairwise_cons.mpr sorted⟩
      rcases List.mem_cons.mp hg with rfl | hg
      · omega
      · have := sorted.1 g hg
        omega
    · next ge =>
      refine List.pairwise_cons.mpr ⟨fun g hg => ?_, ih sorted.2⟩
      rcases mem_place.mp hg with rfl | hg
      · omega
      · exact sorted.1 g hg

omit [DecidableEq κ] in
theorem serialOrder_concat (log : List (Entry κ V)) :
    serialOrder (log ++ [e]) = place e (serialOrder log) := by
  simp [serialOrder]

omit [DecidableEq κ] in
theorem sorted_serialOrder (log : List (Entry κ V)) : Sorted (serialOrder log) := by
  induction log using List.reverseRecOn with
  | nil => exact List.Pairwise.nil
  | append_singleton log e ih => rw [serialOrder_concat]; exact sorted_place ih

omit [DecidableEq κ] in
theorem mem_serialOrder {log : List (Entry κ V)} {f : Entry κ V} :
    f ∈ serialOrder log ↔ f ∈ log := by
  induction log using List.reverseRecOn with
  | nil => rfl
  | append_singleton log e ih => rw [serialOrder_concat, mem_place, ih]; simp [or_comm]

omit [DecidableEq κ] in
theorem perm_place (e : Entry κ V) (order : List (Entry κ V)) : (place e order).Perm (e :: order) := by
  induction order with
  | nil => exact .refl _
  | cons f order ih =>
    rw [place]
    split
    · exact .refl _
    · exact (ih.cons f).trans (List.Perm.swap ..)

omit [DecidableEq κ] in
theorem perm_serialOrder (log : List (Entry κ V)) : (serialOrder log).Perm log := by
  induction log using List.reverseRecOn with
  | nil => exact .refl _
  | append_singleton log e ih =>
    rw [serialOrder_concat]
    exact (perm_place e _).trans ((ih.cons e).trans (List.perm_append_singleton e log).symm)

omit [DecidableEq κ] in
/-- The transactions up to the timestamp come first. -/
theorem Sorted.eq_append (sorted : Sorted order) (t : Nat) :
    order = order.filter (·.time ≤ t) ++ order.filter (t < ·.time) := by
  induction order with
  | nil => rfl
  | cons f order ih =>
    rw [Sorted, List.pairwise_cons] at sorted
    by_cases h : f.time ≤ t
    · rw [List.filter_cons_of_pos (by simpa using h), List.filter_cons_of_neg (by simpa using h),
        List.cons_append, ← ih sorted.2]
    · have later (g) (hg : g ∈ f :: order) : t < g.time := by
        rcases List.mem_cons.mp hg with rfl | hg
        · omega
        · have := sorted.1 g hg
          omega
      rw [List.filter_eq_nil_iff.mpr, List.filter_eq_self.mpr, List.nil_append]
      · simpa using later
      · intro g hg
        have := later g hg
        simpa using this

/-- A commit does not change the past, -/
theorem valueAt_place_of_lt (lt : c < e.time) :
    valueAt store (place e order) k c = valueAt store order k c := by
  unfold valueAt
  have same : (place e order).filter (·.time ≤ c) = order.filter (·.time ≤ c) := by
    induction order with
    | nil => rw [place, List.filter_cons_of_neg (by simpa using lt)]
    | cons f order ih =>
      rw [place]
      split
      · rw [List.filter_cons_of_neg (by simpa using lt)]
      · by_cases h : f.time ≤ c
        · rw [List.filter_cons_of_pos (by simpa using h), ih,
            List.filter_cons_of_pos (by simpa using h)]
        · rw [List.filter_cons_of_neg (by simpa using h), ih,
            List.filter_cons_of_neg (by simpa using h)]
  rw [same]

/-- nor the values of keys that it does not write; -/
theorem valueAt_place_of_not_writesTo (sorted : Sorted order) (none : ¬ e.writesTo k) :
    valueAt store (place e order) k c = valueAt store order k c := by
  unfold valueAt
  conv_rhs => rw [sorted.eq_append e.time]
  rw [place_eq sorted, List.filter_append, List.filter_append, after_append, after_append]
  rw [List.filter_cons]
  split
  · exact after_congr (apply_of_not_writesTo none)
  · rfl

/-- the keys that it writes have its values from its timestamp on, unless others write them
with later timestamps. -/
theorem valueAt_place_of_mem {v : V} (sorted : Sorted order) (le : e.time ≤ c)
    (mem : (k, v) ∈ e.writes) (single : (e.writes.map (·.1)).Nodup)
    (last : ∀ f ∈ order, e.time < f.time → ¬ f.writesTo k) :
    valueAt store (place e order) k c = v := by
  unfold valueAt
  rw [place_eq sorted, List.filter_append, List.filter_cons_of_pos (by simpa using le),
    after_append]
  refine (after_of_not_writesTo (e.apply _) fun f hf => ?_).trans
    (apply_of_mem mem single)
  obtain ⟨hf, -⟩ := List.mem_filter.mp hf
  obtain ⟨hf, later⟩ := List.mem_filter.mp hf
  exact last f hf (by simpa using later)

/-- Without later writes to a key its value at a time is its last value. -/
theorem valueAt_eq_after (sorted : Sorted order) (last : ∀ f ∈ order, c < f.time → ¬ f.writesTo k) :
    valueAt store order k c = after store order k := by
  unfold valueAt
  conv_rhs => rw [sorted.eq_append c, after_append]
  refine (after_of_not_writesTo _ fun f hf => ?_).symm
  obtain ⟨hf, later⟩ := List.mem_filter.mp hf
  exact last f hf (by simpa using later)

/-- A commit leaves the last values of the keys that it does not write, -/
theorem after_place_of_not_writesTo (sorted : Sorted order) (none : ¬ e.writesTo k) :
    after store (place e order) k = after store order k := by
  conv_rhs => rw [sorted.eq_append e.time]
  rw [place_eq sorted, after_append, after_append]
  exact after_congr (apply_of_not_writesTo none)

/-- and the keys that it writes have its values at last, unless others write them later. -/
theorem after_place_of_mem {v : V} (sorted : Sorted order) (mem : (k, v) ∈ e.writes)
    (single : (e.writes.map (·.1)).Nodup) (last : ∀ f ∈ order, e.time < f.time → ¬ f.writesTo k) :
    after store (place e order) k = v := by
  rw [← valueAt_eq_after (c := e.time) (sorted_place sorted)]
  · exact valueAt_place_of_mem sorted (Nat.le_refl _) mem single last
  · intro f hf later
    rcases mem_place.mp hf with rfl | hf
    · exact absurd later (Nat.lt_irrefl _)
    · exact last f hf later

/-- A commit that reads the values at its timestamp replays, if no transaction with a later
timestamp reads what it writes. -/
theorem Replays.place (h : Replays store order) (sorted : Sorted order)
    (reads : ∀ r ∈ e.reads, valueAt store order r.1 e.time = r.2)
    (unread : ∀ f ∈ order, e.time < f.time → ∀ r ∈ f.reads, ¬ e.writesTo r.1) :
    Replays store (SerialOrder.place e order) := by
  rw [sorted.eq_append e.time, replays_append] at h
  rw [place_eq sorted, replays_append]
  refine ⟨h.1, reads, h.2.congr e.writesTo (fun k hk => (apply_of_not_writesTo hk).symm) ?_⟩
  intro f hf
  obtain ⟨hf, later⟩ := List.mem_filter.mp hf
  exact unread f hf (by simpa using later)

end SerialOrder
