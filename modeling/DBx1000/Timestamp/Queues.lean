import DBx1000.Timestamp.Row
import Mathlib.Data.List.Perm.Subperm

/-!
# The queues of a row

What the operations on the queues take out and leave. A queue is looked at by transaction:
`debuffer_req` for a transaction takes the entry that was put in last.
-/

namespace DBx1000.Timestamp

variable {V τ : Type} {queue rest reqs : List (TsReqEntry V τ)} {req : TsReqEntry V τ}

theorem le_calMin_iff {m : WithTop Nat} :
    m ≤ calMin queue ↔ ∀ req ∈ queue, m ≤ (req.ts : WithTop Nat) := by
  have turn : ∀ a : WithTop Nat, m ≤ queue.foldl (fun newMin req =>
      if (req.ts : WithTop Nat) < newMin then req.ts else newMin) a ↔
      m ≤ a ∧ ∀ req ∈ queue, m ≤ (req.ts : WithTop Nat) := by
    induction queue with
    | nil => simp
    | cons req queue ih =>
      intro a
      rw [List.foldl_cons, ih, List.forall_mem_cons]
      split
      · next lt => exact ⟨fun h => ⟨h.1.trans lt.le, h⟩, And.right⟩
      · next ge =>
        exact ⟨fun h => ⟨h.1, h.1.trans (not_lt.mp ge), h.2⟩, fun h => ⟨h.1, h.2.2⟩⟩
  exact (turn ⊤).trans (and_iff_right le_top)

theorem calMin_le (mem : req ∈ queue) : calMin queue ≤ req.ts := le_calMin_iff.mp le_rfl req mem

theorem calMin_cons (req : TsReqEntry V τ) (queue : List (TsReqEntry V τ)) :
    calMin (req :: queue) = if (req.ts : WithTop Nat) < calMin queue then ↑req.ts
      else calMin queue := by
  have least : calMin (req :: queue) = min ↑req.ts (calMin queue) := by
    refine le_antisymm (le_min (calMin_le List.mem_cons_self) ?_) ?_
    · exact le_calMin_iff.mpr fun q hq => calMin_le (List.mem_cons_of_mem req hq)
    · refine le_calMin_iff.mpr fun q hq => ?_
      rcases List.mem_cons.mp hq with rfl | hq
      · exact min_le_left _ _
      · exact (min_le_right _ _).trans (calMin_le hq)
  rw [least]
  split
  · next lt => exact min_eq_left lt.le
  · next ge => exact min_eq_right (not_lt.mp ge)

/-- The least timestamp is that of an entry. -/
theorem exists_calMin (some : queue ≠ []) : ∃ req ∈ queue, calMin queue = req.ts := by
  induction queue with
  | nil => exact absurd rfl some
  | cons req queue ih =>
    rw [calMin_cons]
    split
    · exact ⟨req, List.mem_cons_self, rfl⟩
    · next ge =>
      have more : queue ≠ [] := by
        rintro rfl
        exact ge (WithTop.coe_lt_top req.ts)
      obtain ⟨q, hq, eq⟩ := ih more
      exact ⟨q, List.mem_cons_of_mem req hq, eq⟩

theorem calMin_anti (sub : rest ⊆ queue) : calMin queue ≤ calMin rest :=
  le_calMin_iff.mpr fun _ hq => calMin_le (sub hq)

theorem debufferTs_eq {ts : WithTop Nat} (returnQueue : List (TsReqEntry V τ)) :
    debufferTs ts queue returnQueue =
      ((queue.filter fun req => (req.ts : WithTop Nat) ≤ ts).reverse ++ returnQueue,
        queue.filter fun req => ts < (req.ts : WithTop Nat)) := by
  induction queue generalizing returnQueue with
  | nil => rfl
  | cons req queue ih =>
    rw [debufferTs]
    split
    · next le => simp [ih, le, not_lt.mpr le]
    · next gt => simp [ih, gt, not_le.mp gt]

theorem filter_of_none {m : WithTop Nat}
    (none : queue.filter (fun req => (req.ts : WithTop Nat) ≤ m) = []) :
    queue.filter (fun req => m < (req.ts : WithTop Nat)) = queue := by
  rw [List.filter_eq_nil_iff] at none
  rw [List.filter_eq_self]
  intro req hreq
  simpa using none req hreq

theorem youngReq_spec (notNil : queue ≠ []) : ∃ young ∈ queue, youngReq queue = some young := by
  have turn : ∀ y ∈ queue, ∀ reqs ⊆ queue,
      ∃ young ∈ queue, reqs.foldl younger (some y) = some young := by
    intro y hy reqs
    induction reqs generalizing y with
    | nil => exact fun _ => ⟨y, hy, rfl⟩
    | cons req reqs ih =>
      intro sub
      obtain ⟨here, more⟩ := List.cons_subset.mp sub
      rw [List.foldl_cons, younger]
      split
      · exact ih req here more
      · exact ih y hy more
  obtain ⟨first, others, rfl⟩ := List.exists_cons_of_ne_nil notNil
  exact turn first List.mem_cons_self others (List.subset_cons_self ..)

/-! ### The entries of a transaction -/

section Of

variable [DecidableEq τ] {t u : τ}

/-- The entries of a transaction, the last one first. -/
def entriesOf (t : τ) (queue : List (TsReqEntry V τ)) : List (TsReqEntry V τ) :=
  queue.filter fun req => req.txn = t

theorem debufferTxn_spec (notNil : entriesOf t queue ≠ []) : ∃ req rest,
    debufferTxn t queue = some (req, rest) ∧ rest ⊆ queue ∧
      ∀ u, entriesOf u rest = if u = t then (entriesOf u queue).tail else entriesOf u queue := by
  induction queue with
  | nil => exact absurd rfl notNil
  | cons req queue ih =>
    rw [debufferTxn]
    by_cases here : req.txn = t
    · rw [if_pos here]
      refine ⟨req, queue, rfl, List.subset_cons_self .., fun u => ?_⟩
      unfold entriesOf
      rw [List.filter_cons]
      by_cases same : u = t
      · simp [same, here]
      · simp [same, here, Ne.symm same]
    · rw [if_neg here]
      have more : entriesOf t queue ≠ [] := by
        unfold entriesOf at notNil ⊢
        rwa [List.filter_cons, if_neg (by simpa using here)] at notNil
      obtain ⟨found, rest, eq, sub, others⟩ := ih more
      rw [eq]
      refine ⟨found, req :: rest, rfl, List.cons_subset_cons req sub, fun u => ?_⟩
      have other := others u
      unfold entriesOf at other ⊢
      rw [List.filter_cons, List.filter_cons, other]
      by_cases mine : req.txn = u
      · have ne : u ≠ t := fun eq => here (mine.trans eq)
        simp [mine, ne]
      · simp [mine]

end Of

end DBx1000.Timestamp
