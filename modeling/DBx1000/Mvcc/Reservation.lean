import DBx1000.Mvcc.History
import Mathlib.Logic.Equiv.Basic

/-!
# Reservations, commits and rollbacks

The steps of a pre-write: the garbage collection or the recycling that makes room for it, its
entry, and what becomes of the entry. Retiring a version is one step for both: the version
of an entry becomes the oldest one and all older ones are forgotten.
-/

namespace DBx1000.Mvcc

open Scan

namespace RowMvcc

variable {V τ : Type*} {r r' : RowMvcc V τ} {gThreadCnt idx ts : Nat} {minTs : WithTop Nat}
variable {debug : Bool}

namespace History

/-! ### The oldest version of the history is retired -/

theorem entry_exchange {i : Nat} (lt : idx < r.hisLen) :
    (r.retire idx).entry i = if i = idx then { r.entry idx with row := r.row } else r.entry i :=
  entry_modifyEntry lt i

theorem entry_forget (i : Nat) :
    (r.forget ts).entry i =
      if (r.entry i).valid ∧ (r.entry i).ts ≤ ts then
        { r.entry i with valid := false, reserved := false }
      else r.entry i := by
  unfold entry forget
  rw [List.getElem?_map]
  cases r.writeHistory[i]? <;> rfl

theorem row_retire {i : Nat} (lt : idx < r.hisLen) :
    (((r.retire idx).forget ts).entry i).row = if i = idx then r.row else (r.entry i).row := by
  rw [entry_forget, entry_exchange lt]
  by_cases e : i = idx
  · rw [if_pos e]
    split <;> rfl
  · rw [if_neg e]
    split <;> rfl

theorem entry_retire {i : Nat} (lt : idx < r.hisLen) :
    ((r.retire idx).forget ts).entry i =
      (if (r.entry i).valid ∧ (r.entry i).ts ≤ ts then
        { r.entry i with
          valid := false, reserved := false, row := if i = idx then r.row else (r.entry i).row }
      else { r.entry i with row := if i = idx then r.row else (r.entry i).row }) := by
  rw [entry_forget, entry_exchange lt]
  by_cases e : i = idx
  · rw [if_pos e, if_pos e, e]
  · rw [if_neg e, if_neg e]

theorem valid_retire {i : Nat} (lt : idx < r.hisLen) :
    (((r.retire idx).forget ts).entry i).valid = true ↔
      (r.entry i).valid = true ∧ ts < (r.entry i).ts := by
  rw [entry_retire lt]
  split
  · next gone =>
    refine iff_of_false nofun fun kept => ?_
    omega
  · next kept =>
    constructor
    · intro valid
      exact ⟨valid, Nat.not_le.mp fun le => kept ⟨valid, le⟩⟩
    · exact fun valid => valid.1

theorem ts_retire {i : Nat} (lt : idx < r.hisLen) :
    (((r.retire idx).forget ts).entry i).ts = (r.entry i).ts := by
  rw [entry_retire lt]
  split <;> rfl

theorem buffer_retire {i : Option Nat} (lt : idx < r.hisLen) :
    ((r.retire idx).forget ts).buffer i = r.buffer (Equiv.swap none (some idx) i) := by
  cases i with
  | none =>
    rw [Equiv.swap_apply_left]
    rfl
  | some i =>
    change (((r.retire idx).forget ts).entry i).row = _
    rw [row_retire lt]
    split
    · next e =>
      rw [e, Equiv.swap_apply_right]
      rfl
    · next ne =>
      rw [Equiv.swap_apply_of_ne_of_ne (by nofun) fun is => ne (Option.some.inj is)]
      rfl

/-- The version of the entry becomes the oldest one, and all older ones are forgotten. -/
theorem retire (h : History r) (free : r.existsPrewrite = false)
    (valid : (r.entry idx).valid = true) :
    History ((r.retire idx).forget (r.entry idx).ts) ∧
      Keeps r ((r.retire idx).forget (r.entry idx).ts) := by
  have lt := lt_of_valid valid
  obtain ⟨newer, le⟩ := h.range idx valid
  -- a version that is not older stays current
  have stays (v : Nat) (b : Option Nat) (bound : (r.entry idx).ts ≤ v) (cur : r.Current v b) :
      ((r.retire idx).forget (r.entry idx).ts).Current v b := by
    rcases cur with ⟨is, -⟩ | ⟨i, hi, is, row⟩
    · omega
    · by_cases e : i = idx
      · -- its row is the base row now, and its timestamp the oldest one
        subst e
        exact .inl ⟨is.symm, row.symm⟩
      · have ne : (r.entry idx).ts ≠ (r.entry i).ts := fun same =>
          e (h.stamps i idx hi valid same.symm)
        refine .inr ⟨i, (valid_retire lt).mpr ⟨hi, by omega⟩, (ts_retire lt).trans is, ?_⟩
        rw [row_retire lt, if_neg e]
        exact row
  constructor
  · constructor
    case nonempty =>
      change 0 < (((r.modifyEntry idx _).writeHistory).map _).length
      rw [List.length_map]
      exact Nat.lt_of_lt_of_eq h.nonempty (hisLen_modifyEntry _).symm
    case count =>
      -- what is counted off is what the loop makes invalid
      have split := countP_forget (r.retire idx).writeHistory (r.entry idx).ts
      have same := countP_modify (·.valid) (fun e => { e with row := r.row }) (getElem?_entry lt)
      have count : (r.retire idx).writeHistory.countP (·.valid) = r.numVersions :=
        (Nat.add_right_cancel same).trans h.count
      change _ = r.numVersions - _
      rw [← count, ← split]
      exact (Nat.add_sub_cancel ..).symm
    case range =>
      intro i hi
      -- what is still valid is newer than the version that has been retired
      obtain ⟨was, newer⟩ := (valid_retire lt).mp hi
      rw [ts_retire lt]
      exact ⟨newer, (h.range i was).2⟩
    case stamps =>
      intro i j hi hj same
      rw [ts_retire lt, ts_retire lt] at same
      exact h.stamps i j ((valid_retire lt).mp hi).1 ((valid_retire lt).mp hj).1 same
    case oldest_le => exact le
    case reserved =>
      intro i reserved invalid
      rw [entry_retire lt] at reserved invalid
      split at reserved
      · cases reserved
      · next kept =>
        rw [if_neg kept] at invalid
        have := (h.reserved i reserved invalid).1
        rw [free] at this
        cases this
    case pending =>
      intro pre
      change r.existsPrewrite = true at pre
      rw [free] at pre
      cases pre
    case base => exact h.rows idx valid
    case rows =>
      intro i hi
      have was := ((valid_retire lt).mp hi).1
      rw [row_retire lt]
      split
      · exact h.base
      · exact h.rows i was
    case latest => exact stays _ _ le h.latest
    case distinct =>
      intro i j same some
      rw [buffer_retire lt] at same some
      rw [buffer_retire lt] at same
      -- the base row and the row of the entry have changed places
      exact (Equiv.swap none _).injective (h.distinct _ _ same some)
    case allocated =>
      intro i b at_
      rw [buffer_retire lt] at at_
      exact h.allocated _ b at_
  · exact ⟨⟨rfl, rfl, rfl, Nat.le_of_lt newer, stays⟩, rfl, rfl⟩

/-- The garbage collection keeps the history. What it retires is below `min_ts`. -/
theorem collect (minTs : WithTop Nat) (h : History r) (free : r.existsPrewrite = false) :
    ∃ r', r.collect minTs = some r' ∧ History r' ∧ Keeps r r' ∧ r'.existsPrewrite = false ∧
      (r' = r ∨ r'.numVersions < r'.hisLen ∧ r.numVersions = r.hisLen ∧
        ∃ i, (r.entry i).valid = true ∧ r'.oldestWts = (r.entry i).ts ∧
          WithTop.some r.oldestWts < minTs ∧ WithTop.some (r.entry i).ts < minTs) := by
  unfold RowMvcc.collect
  split
  · next full =>
    rcases scanMax_cases (fun e : WriteHisEntry => e.valid = true ∧ WithTop.some e.ts < minTs)
      (·.ts) r.writeHistory 0 with ⟨none, -⟩ | ⟨idx, e, at_, old, -, found, -⟩
    · rw [maxRecycle, none]
      -- no version is older than all readers
      exact ⟨r, rfl, h, Keeps.refl r, free, .inl rfl⟩
    · obtain ⟨lt, is⟩ := entry_of_getElem? at_
      have valid : (r.entry idx).valid = true := by
        rw [is]
        exact old.1
      have ts : e.ts = (r.entry idx).ts := by rw [is]
      rw [maxRecycle, found]
      dsimp only
      obtain ⟨history, keeps⟩ := h.retire free valid
      rw [if_pos, ts]
      · refine ⟨_, rfl, history, keeps, free, .inr ⟨?_, full.2, idx, valid, rfl, full.1, ?_⟩⟩
        · -- the version that is retired leaves its entry
          have counts := List.countP_le_length (p := (·.valid))
            (l := ((r.retire idx).forget (r.entry idx).ts).writeHistory)
          rw [history.count] at counts
          refine Nat.lt_of_le_of_ne counts fun all => ?_
          rw [← history.count] at all
          have := List.countP_eq_length.mp all _ (entry_mem (r := (r.retire idx).forget (r.entry idx).ts)
            (i := idx) ?_)
          · have := ((valid_retire lt).mp this).2
            omega
          · change idx < (((r.modifyEntry idx _).writeHistory).map _).length
            rw [List.length_map]
            exact Nat.lt_of_lt_of_eq lt (hisLen_modifyEntry _).symm
        · rw [← ts]
          exact old.2
      · -- the assertion of the loop: an entry that is forgotten has a row
        intro f hf gone
        obtain ⟨i, rfl⟩ := exists_entry hf
        rw [entry_exchange lt] at gone ⊢
        by_cases e : i = idx
        · rw [if_pos e]
          exact h.base
        · rw [if_neg e] at gone ⊢
          exact h.rows i gone.1
  · exact ⟨r, rfl, h, Keeps.refl r, free, .inl rfl⟩

/-- The counter and the latest timestamp are right. -/
theorem counted (h : History r) : r.Counted := by
  refine ⟨h.count, fun some => ?_⟩
  rcases scanMax_cases (fun e : WriteHisEntry => e.valid = true) (·.ts) r.writeHistory 0 with
    ⟨-, none⟩ | ⟨idx, e, at_, valid, -, found, most⟩
  · -- a version is above the oldest one
    rw [← h.count] at some
    obtain ⟨e, he, valid⟩ := List.countP_pos_iff.mp some
    have zero := none e he valid
    obtain ⟨i, rfl⟩ := exists_entry he
    have := (h.range i valid).1
    omega
  · rw [found]
    obtain ⟨-, is⟩ := entry_of_getElem? at_
    have valid : (r.entry idx).valid = true := by rw [is]; exact valid
    have range := h.range idx valid
    rw [is] at range
    rcases h.latest with ⟨base, -⟩ | ⟨i, hi, latest, -⟩
    · omega
    · have le := most _ (entry_mem (lt_of_valid hi)) hi
      rw [latest] at le
      exact Nat.le_antisymm range.2 le

/-! ### An entry is reserved -/

/-- What the search finds is neither valid nor reserved. -/
theorem findFree_some {i n : Nat} {idx : Option Nat} (es : List WriteHisEntry)
    (found : findFree es i idx = some n) :
    idx = some n ∨ ∃ e, es[n - i]? = some e ∧ i ≤ n ∧ e.valid = false ∧ e.reserved = false := by
  induction es generalizing i idx with
  | nil => exact .inl found
  | cons e es ih =>
    have tail {idx : Option Nat} (found : findFree es (i + 1) idx = some n) :
        idx = some n ∨ ∃ f, (e :: es)[n - i]? = some f ∧ i ≤ n ∧ f.valid = false ∧
          f.reserved = false := by
      rcases ih found with before | ⟨f, at_, le, invalid, free⟩
      · exact .inl before
      · refine .inr ⟨f, ?_, by omega, invalid, free⟩
        rw [show n - i = (n - (i + 1)) + 1 by omega]
        exact at_
    have here (free : ¬ e.valid ∧ ¬ e.reserved) (is : some i = some n) :
        ∃ f, (e :: es)[n - i]? = some f ∧ i ≤ n ∧ f.valid = false ∧ f.reserved = false := by
      obtain rfl := Option.some.inj is
      refine ⟨e, by rw [Nat.sub_self]; rfl, Nat.le_refl _, ?_, ?_⟩
      · simpa using free.1
      · simpa using free.2
    rw [findFree] at found
    split at found
    · next is => exact .inr (here ⟨is.1, is.2.1⟩ found)
    · split at found
      · next is =>
        rcases tail found with at_ | later
        · exact .inr (here is at_)
        · exact .inr later
      · exact tail found

/-- It finds an entry if there is one. -/
theorem findFree_none {i : Nat} {idx : Option Nat} (es : List WriteHisEntry)
    (none : findFree es i idx = .none) : idx = .none ∧ ∀ e ∈ es, e.valid ∨ e.reserved := by
  induction es generalizing i idx with
  | nil => exact ⟨none, fun _ => nofun⟩
  | cons e es ih =>
    rw [findFree] at none
    split at none
    · cases none
    · split at none
      · cases (ih none).1
      · next taken =>
        obtain ⟨start, rest⟩ := ih none
        refine ⟨start, fun f hf => ?_⟩
        rcases List.mem_cons.mp hf with rfl | hf
        · by_contra free
          push Not at free
          exact taken free
        · exact rest f hf

/-- An entry that is free can be cleared without effect. -/
theorem clear_of_free (lt : idx < r.hisLen) (invalid : (r.entry idx).valid = false)
    (free : (r.entry idx).reserved = false) : r.clear idx = r := by
  have same : r.writeHistory.modify idx (fun e => { e with valid := false, reserved := false }) =
      r.writeHistory := by
    refine List.ext_getElem? fun i => ?_
    rw [List.getElem?_modify]
    split
    · next e =>
      subst e
      rw [getElem?_entry lt]
      generalize r.entry idx = e at *
      obtain ⟨valid, reserved, ts, row⟩ := e
      dsimp only at invalid free
      rw [invalid, free]
      rfl
    · cases r.writeHistory[i]? <;> rfl
  unfold clear modifyEntry
  rw [same]

/-- A reservation sets what clearing sets. -/
theorem reserve_clear (lt : idx < r.hisLen) :
    ((r.clear idx).allocRow idx).reserve idx ts = (r.allocRow idx).reserve idx ts := by
  have row : ((r.clear idx).entry idx).row = (r.entry idx).row := by
    unfold clear
    rw [entry_modifyEntry lt, if_pos rfl]
  unfold RowMvcc.allocRow
  rw [row]
  split
  · simp only [reserve, clear, modifyEntry, List.modify_modify_eq]
    rfl
  · simp only [reserve, clear, modifyEntry, List.modify_modify_eq]
    rfl

/-- The history in which the oldest version of the array has made room. -/
theorem recycle (h : History r) (free : r.existsPrewrite = false)
    (full : r.numVersions = r.hisLen) :
    ∃ q idx, r.recycle = some (q, idx) ∧ idx < q.hisLen ∧ History (q.clear idx) ∧
      Keeps r (q.clear idx) ∧ q.existsPrewrite = false ∧ (r.entry idx).valid = true ∧
        q.oldestWts = (r.entry idx).ts ∧
          ∀ j, (r.entry j).valid = true → (r.entry idx).ts ≤ (r.entry j).ts := by
  unfold RowMvcc.recycle
  rcases scanMin_cases (fun e : WriteHisEntry => e.valid = true) (fun e => WithTop.some e.ts)
    r.writeHistory ⊤ with ⟨-, none⟩ | ⟨idx, e, at_, valid, -, found, least⟩
  · -- a full array has a version
    rw [← h.count] at full
    have all := List.countP_eq_length.mp full _ (entry_mem h.nonempty)
    exact absurd (none _ (entry_mem h.nonempty) all) (not_le.mpr (WithTop.coe_lt_top _))
  · obtain ⟨lt, is⟩ := entry_of_getElem? at_
    subst is
    have least (j : Nat) (hj : (r.entry j).valid = true) : (r.entry idx).ts ≤ (r.entry j).ts :=
      WithTop.coe_le_coe.mp (least _ (entry_mem (lt_of_valid hj)) hj)
    rw [minVersion, found]
    dsimp only
    rw [if_pos ⟨WithTop.coe_lt_coe.mpr (h.range idx valid).1, h.rows idx valid⟩]
    obtain ⟨history, keeps⟩ := h.retire free valid
    -- the oldest version is the only one to be forgotten
    have cleared : (r.retire idx).writeHistory.map
        (fun e => if e.valid ∧ e.ts ≤ (r.entry idx).ts then
          { e with valid := false, reserved := false } else e) =
        (r.retire idx).writeHistory.modify idx
          fun e => { e with valid := false, reserved := false } := by
      refine List.ext_getElem? fun i => ?_
      rw [List.getElem?_map, List.getElem?_modify]
      cases at_ : (r.retire idx).writeHistory[i]? with
      | none => split <;> rfl
      | some e =>
        have is := (entry_of_getElem? at_).2
        rw [entry_exchange lt] at is
        have was : e.valid = (r.entry i).valid ∧ e.ts = (r.entry i).ts := by
          rw [← is]
          split
          · next here => rw [here]; exact ⟨rfl, rfl⟩
          · exact ⟨rfl, rfl⟩
        -- timestamps are different, so no other version is as old
        have gone : (e.valid ∧ e.ts ≤ (r.entry idx).ts) ↔ idx = i := by
          rw [was.1, was.2]
          constructor
          · rintro ⟨hi, le⟩
            exact h.stamps idx i valid hi (Nat.le_antisymm (least i hi) le)
          · rintro rfl
            exact ⟨valid, Nat.le_refl _⟩
        exact congrArg some (if_congr gone rfl rfl)
    have count : (r.retire idx).writeHistory.countP (fun e => e.valid ∧ e.ts ≤ (r.entry idx).ts) = 1 := by
      have forgot := countP_forget (r.retire idx).writeHistory (r.entry idx).ts
      have lt' : idx < (r.retire idx).hisLen := Nat.lt_of_lt_of_eq lt (hisLen_modifyEntry _).symm
      have one := countP_modify (·.valid) (fun e => { e with valid := false, reserved := false })
        (getElem?_entry lt')
      rw [entry_exchange lt, if_pos rfl] at one
      simp only [valid, Bool.toNat_true, Bool.toNat_false] at one
      rw [cleared] at forgot
      omega
    have same : ({ r.retire idx with numVersions := r.numVersions - 1 } : RowMvcc V τ).clear idx =
        (r.retire idx).forget (r.entry idx).ts := by
      unfold forget clear modifyEntry
      rw [cleared, count]
      rfl
    refine ⟨_, idx, rfl, ?_, ?_, ?_, free, valid, rfl, least⟩
    · exact Nat.lt_of_lt_of_eq lt (hisLen_modifyEntry _).symm
    · rw [same]
      exact history
    · rw [same]
      exact keeps

theorem entry_doubleList (i : Nat) :
    ({ r.doubleList with prewriteTs := ts } : RowMvcc V τ).entry i = r.entry i := by
  unfold entry RowMvcc.doubleList
  by_cases lt : i < r.writeHistory.length
  · rw [List.getElem?_append_left lt]
  · have ge := Nat.not_lt.mp lt
    rw [List.getElem?_append_right ge, List.getElem?_replicate, List.getElem?_eq_none ge]
    split <;> rfl

/-- A longer history has the same versions. -/
theorem doubleList (ts : Nat) (h : History r) (free : r.existsPrewrite = false) :
    History { r.doubleList with prewriteTs := ts } ∧
      Keeps r { r.doubleList with prewriteTs := ts } := by
  have same (i : Nat) : ({ r.doubleList with prewriteTs := ts } : RowMvcc V τ).entry i = r.entry i :=
    entry_doubleList i
  have current (v : Nat) (b : Option Nat) (cur : r.Current v b) :
      ({ r.doubleList with prewriteTs := ts } : RowMvcc V τ).Current v b := by
    rcases cur with base | ⟨i, valid, at_, row⟩
    · exact .inl base
    · exact .inr ⟨i, by rw [same]; exact valid, by rw [same]; exact at_, by rw [same]; exact row⟩
  have buffer (i : Option Nat) :
      ({ r.doubleList with prewriteTs := ts } : RowMvcc V τ).buffer i = r.buffer i := by
    cases i with
    | none => rfl
    | some i => exact congrArg WriteHisEntry.row (same i)
  constructor
  · constructor
    case nonempty =>
      change 0 < (r.writeHistory ++ List.replicate r.hisLen WriteHisEntry.empty).length
      rw [List.length_append]
      exact Nat.add_pos_left h.nonempty _
    case count =>
      change (r.writeHistory ++ List.replicate r.hisLen WriteHisEntry.empty).countP (·.valid) = _
      -- the new half has no version
      rw [List.countP_append, List.countP_replicate, h.count]
      rfl
    case range =>
      intro i valid
      rw [same] at valid ⊢
      exact h.range i valid
    case stamps =>
      intro i j hi hj at_
      rw [same] at hi at_
      rw [same] at hj at_
      exact h.stamps i j hi hj at_
    case oldest_le => exact h.oldest_le
    case reserved =>
      intro i reserved invalid
      rw [same] at reserved invalid
      exact h.reserved i reserved invalid
    case pending =>
      intro pre
      change r.existsPrewrite = true at pre
      rw [free] at pre
      cases pre
    case base => exact h.base
    case rows =>
      intro i valid
      rw [same] at valid ⊢
      exact h.rows i valid
    case latest => exact current _ _ h.latest
    case distinct =>
      intro i j at_ some
      rw [buffer] at at_ some
      rw [buffer] at at_
      exact h.distinct i j at_ some
    case allocated =>
      intro i b at_
      rw [buffer] at at_
      exact h.allocated i b at_
  · exact ⟨⟨rfl, rfl, rfl, Nat.le_refl _, fun v b _ cur => current v b cur⟩, rfl, rfl⟩

/-- The timestamp up to which a pre-write may retire versions: when the array is full, one below
`min_ts`, or, if the array is long enough, the oldest one. -/
def Retires (gThreadCnt : Nat) (minTs : WithTop Nat) (r : RowMvcc V τ) (o : Nat) : Prop :=
  r.numVersions = r.hisLen ∧ ∃ i, (r.entry i).valid = true ∧ (r.entry i).ts = o ∧
    (WithTop.some r.oldestWts < minTs ∧ WithTop.some (r.entry i).ts < minTs ∨
      gThreadCnt ≤ r.hisLen ∧ ∀ j, (r.entry j).valid = true → (r.entry i).ts ≤ (r.entry j).ts)

/-- There is room for a pre-write. -/
theorem makeRoom (debug : Bool) (gThreadCnt ts : Nat) (h : History r) (free : r.existsPrewrite = false) :
    ∃ q idx, r.makeRoom debug gThreadCnt ts = some (q, idx) ∧ idx < q.hisLen ∧ History (q.clear idx) ∧
      Keeps r (q.clear idx) ∧ q.existsPrewrite = false ∧
        (q.oldestWts = r.oldestWts ∨ r.numVersions = r.hisLen ∧
          ∃ i, (r.entry i).valid = true ∧ (r.entry i).ts = q.oldestWts ∧ gThreadCnt ≤ r.hisLen ∧
            ∀ j, (r.entry j).valid = true → (r.entry i).ts ≤ (r.entry j).ts) := by
  have le := List.countP_le_length (p := (·.valid)) (l := r.writeHistory)
  rw [h.count] at le
  unfold RowMvcc.makeRoom
  split
  · next room =>
    -- some entry is not valid, and without a pre-write it is not reserved either
    cases found : findFree r.writeHistory 0 none with
    | none =>
      have taken := (findFree_none _ found).2
      have all : ∀ e ∈ r.writeHistory, e.valid = true := by
        intro e he
        obtain ⟨i, rfl⟩ := exists_entry he
        rcases taken _ he with valid | reserved
        · exact valid
        · by_contra invalid
          have := (h.reserved i reserved (by simpa using invalid)).1
          rw [free] at this
          cases this
      have := List.countP_eq_length.mpr all
      rw [h.count] at this
      exact absurd room (by rw [this]; exact Nat.lt_irrefl _)
    | some idx =>
      rcases findFree_some _ found with start | ⟨e, at_, -, invalid, unreserved⟩
      · cases start
      obtain ⟨lt, is⟩ := entry_of_getElem? at_
      rw [Nat.sub_zero] at lt is
      rw [← is] at invalid unreserved
      refine ⟨r, idx, rfl, lt, ?_, ?_, free, .inl rfl⟩
      · rw [clear_of_free lt invalid unreserved]
        exact h
      · rw [clear_of_free lt invalid unreserved]
        exact Keeps.refl r
  · next more =>
    have full : r.numVersions = r.hisLen := Nat.le_antisymm le (Nat.not_lt.mp more)
    split
    · next long =>
      -- as many versions as threads: the oldest one gives way
      obtain ⟨q, idx, result, lt, history, keeps, free', valid, oldest, least⟩ := h.recycle free full
      exact ⟨q, idx, result, lt, history, keeps, free',
        .inr ⟨full, idx, valid, oldest.symm, long, least⟩⟩
    · have all : ∀ e ∈ r.writeHistory, e.valid = true :=
        List.countP_eq_length.mp (h.count.trans full)
      -- otherwise the array is doubled, and the first new entry is free
      rw [if_neg fun fails => fails.2 all]
      obtain ⟨history, keeps⟩ := h.doubleList ts free
      have lt : r.hisLen < ({ r.doubleList with prewriteTs := ts } : RowMvcc V τ).hisLen := by
        change r.hisLen < (r.writeHistory ++ List.replicate r.hisLen WriteHisEntry.empty).length
        rw [List.length_append, List.length_replicate]
        exact Nat.lt_add_of_pos_right h.nonempty
      have empty : ({ r.doubleList with prewriteTs := ts } : RowMvcc V τ).entry r.hisLen = .empty := by
        rw [entry_doubleList]
        exact entry_of_ge (Nat.le_refl _)
      have clean := clear_of_free lt (by rw [empty]; rfl) (by rw [empty]; rfl)
      refine ⟨_, _, rfl, lt, ?_, ?_, free, .inl rfl⟩
      · rw [clean]
        exact history
      · rw [clean]
        exact keeps

/-- What a reservation does to the entry, which has a row then. -/
theorem reserve_eq (r : RowMvcc V τ) (idx ts : Nat) :
    ∃ b fresh, ((r.entry idx).row = some b ∧ fresh = r.fresh ∨
        (r.entry idx).row = none ∧ b = r.fresh ∧ fresh = r.fresh + 1) ∧
      (r.allocRow idx).reserve idx ts =
        { r.modifyEntry idx fun _ => ⟨false, true, ts, some b⟩ with
          existsPrewrite := true, prewriteHisId := idx, prewriteTs := ts, fresh := fresh } := by
  unfold RowMvcc.allocRow
  cases row : (r.entry idx).row with
  | none =>
    -- the entry has no row yet
    refine ⟨r.fresh, r.fresh + 1, .inr ⟨rfl, rfl, rfl⟩, ?_⟩
    rw [if_pos rfl]
    unfold RowMvcc.reserve modifyEntry
    rw [List.modify_modify_eq]
    rfl
  | some b =>
    -- the row of an older version is used again
    refine ⟨b, r.fresh, .inl ⟨rfl, rfl⟩, ?_⟩
    rw [if_neg (by nofun)]
    have same : r.writeHistory.modify idx
        (fun e => { e with valid := false, reserved := true, ts := ts }) =
          r.writeHistory.modify idx fun _ => ⟨false, true, ts, some b⟩ := by
      refine List.ext_getElem? fun i => ?_
      rw [List.getElem?_modify, List.getElem?_modify]
      cases at_ : r.writeHistory[i]? with
      | none => rfl
      | some e =>
        refine congrArg some ?_
        split
        · next here =>
          subst here
          rw [← (entry_of_getElem? at_).2]
          exact congrArg (WriteHisEntry.mk false true ts) row
        · rfl
    unfold RowMvcc.reserve modifyEntry
    rw [same]

/-- The reservation of a free entry for a pre-write that is newer than the versions. -/
theorem reserve (h : History r) (free : r.existsPrewrite = false) (lt : idx < r.hisLen)
    (invalid : (r.entry idx).valid = false) (newer : r.latestWts < ts) :
    History ((r.allocRow idx).reserve idx ts) ∧ Keeps r ((r.allocRow idx).reserve idx ts) := by
  obtain ⟨b, fresh, row, same⟩ := reserve_eq r idx ts
  rw [same]
  generalize hq : ({ r.modifyEntry idx fun _ => ⟨false, true, ts, some b⟩ with
    existsPrewrite := true, prewriteHisId := idx, prewriteTs := ts, fresh := fresh } :
      RowMvcc V τ) = q
  have entry (i : Nat) : q.entry i = if i = idx then ⟨false, true, ts, some b⟩ else r.entry i := by
    rw [← hq]
    exact entry_modifyEntry lt i
  have valid (i : Nat) (hi : (q.entry i).valid = true) : i ≠ idx ∧ q.entry i = r.entry i := by
    rw [entry] at hi ⊢
    split at hi
    · cases hi
    · next ne => exact ⟨ne, if_neg ne⟩
  have current (v : Nat) (c : Option Nat) (cur : r.Current v c) : q.Current v c := by
    rcases cur with base | ⟨i, hi, at_, row⟩
    · left
      rw [← hq]
      exact base
    · -- the entry that is reserved was not a version
      have ne : i ≠ idx := by
        rintro rfl
        rw [invalid] at hi
        cases hi
      have is : q.entry i = r.entry i := by rw [entry, if_neg ne]
      exact .inr ⟨i, by rw [is]; exact hi, by rw [is]; exact at_, by rw [is]; exact row⟩
  have buffer (i : Option Nat) :
      q.buffer i = if i = some idx then some b else r.buffer i := by
    cases i with
    | none =>
      rw [if_neg (by nofun), ← hq]
      rfl
    | some i =>
      change (q.entry i).row = _
      rw [entry]
      by_cases e : i = idx
      · rw [if_pos e, if_pos (congrArg some e)]
      · rw [if_neg e, if_neg fun is => e (Option.some.inj is)]
        rfl
  -- the row was that of the entry, or it is a new one
  have other (i : Option Nat) (ne : i ≠ some idx) : r.buffer i ≠ some b := by
    intro is
    rcases row with ⟨was, -⟩ | ⟨-, new, -⟩
    · refine ne (h.distinct i (some idx) (is.trans was.symm) ?_)
      rw [is]
      nofun
    · have := h.allocated i b is
      omega
  have grows : r.fresh ≤ q.fresh ∧ b < q.fresh := by
    rw [← hq]
    change r.fresh ≤ fresh ∧ b < fresh
    rcases row with ⟨was, rfl⟩ | ⟨-, rfl, rfl⟩
    · exact ⟨Nat.le_refl _, h.allocated (some idx) b was⟩
    · exact ⟨Nat.le_succ _, Nat.lt_succ_self _⟩
  have count : q.writeHistory.countP (·.valid) = r.writeHistory.countP (·.valid) := by
    have one := countP_modify (·.valid) (fun _ => ⟨false, true, ts, some b⟩) (getElem?_entry lt)
    rw [invalid] at one
    rw [← hq]
    exact one
  constructor
  · constructor
    case nonempty =>
      rw [← hq]
      exact Nat.lt_of_lt_of_eq h.nonempty (hisLen_modifyEntry _).symm
    case count =>
      rw [count, h.count, ← hq]
      rfl
    case range =>
      intro i hi
      obtain ⟨-, is⟩ := valid i hi
      rw [is] at hi ⊢
      rw [← hq]
      exact h.range i hi
    case stamps =>
      intro i j hi hj at_
      obtain ⟨-, is⟩ := valid i hi
      obtain ⟨-, js⟩ := valid j hj
      rw [is] at hi at_
      rw [js] at hj at_
      exact h.stamps i j hi hj at_
    case oldest_le =>
      rw [← hq]
      exact h.oldest_le
    case reserved =>
      intro i reserved invalid
      rw [← hq]
      refine ⟨rfl, ?_⟩
      -- without a pre-write no other entry is reserved
      by_contra ne
      rw [entry, if_neg ne] at reserved invalid
      have := (h.reserved i reserved invalid).1
      rw [free] at this
      cases this
    case pending =>
      intro _
      have at_ : q.entry q.prewriteHisId = ⟨false, true, ts, some b⟩ := by
        rw [entry, ← hq]
        exact if_pos rfl
      rw [resRow, at_]
      refine ⟨rfl, rfl, nofun, ?_⟩
      rw [← hq]
      exact newer
    case base =>
      rw [← hq]
      exact h.base
    case rows =>
      intro i hi
      obtain ⟨-, is⟩ := valid i hi
      rw [is] at hi ⊢
      exact h.rows i hi
    case latest =>
      have := current _ _ h.latest
      rw [← hq] at this ⊢
      exact this
    case distinct =>
      intro i j at_ some
      rw [buffer] at at_ some
      rw [buffer] at at_
      by_cases hi : i = .some idx
      · by_cases hj : j = .some idx
        · rw [hi, hj]
        · rw [if_pos hi, if_neg hj] at at_
          exact absurd at_.symm (other j hj)
      · rw [if_neg hi] at at_ some
        by_cases hj : j = .some idx
        · rw [if_pos hj] at at_
          exact absurd at_ (other i hi)
        · rw [if_neg hj] at at_
          exact h.distinct i j at_ some
    case allocated =>
      intro i c at_
      rw [buffer] at at_
      split at at_
      · rw [← Option.some.inj at_]
        exact grows.2
      · exact Nat.lt_of_lt_of_le (h.allocated i c at_) grows.1
  · subst hq
    exact ⟨⟨rfl, rfl, rfl, Nat.le_refl _, fun v c _ cur => current v c cur⟩, rfl, rfl⟩

/-- A pre-write that is newer than the versions gets an entry. -/
theorem reserveRow (debug : Bool) (gThreadCnt : Nat) (minTs : WithTop Nat) (h : History r)
    (free : r.existsPrewrite = false) (newer : r.latestWts < ts) :
    ∃ r', r.reserveRow debug gThreadCnt minTs ts = some r' ∧ History r' ∧ Keeps r r' ∧
      r'.existsPrewrite = true ∧ r'.prewriteTs = ts ∧
        (r'.oldestWts = r.oldestWts ∨ Retires gThreadCnt minTs r r'.oldestWts) := by
  obtain ⟨p, collected, history, keeps, free₁, gone⟩ := h.collect minTs free
  obtain ⟨q, idx, made, lt, cleared, keeps', free₂, oldest⟩ :=
    history.makeRoom debug gThreadCnt ts free₁
  have newer' : (q.clear idx).latestWts < ts := by
    rw [keeps'.latestWts, keeps.latestWts]
    exact newer
  have lt' : idx < (q.clear idx).hisLen := Nat.lt_of_lt_of_eq lt (hisLen_modifyEntry _).symm
  have invalid : ((q.clear idx).entry idx).valid = false := by
    unfold clear
    rw [entry_modifyEntry lt, if_pos rfl]
  obtain ⟨done, keeps''⟩ := cleared.reserve free₂ lt' invalid newer'
  rw [reserve_clear lt] at done keeps''
  have oldest' : ((q.allocRow idx).reserve idx ts).oldestWts = q.oldestWts := by
    unfold RowMvcc.allocRow
    split <;> rfl
  refine ⟨(q.allocRow idx).reserve idx ts, ?_, done, (keeps.trans keeps').trans keeps'', rfl, rfl, ?_⟩
  · -- the three assertions hold, so the call returns
    unfold RowMvcc.reserveRow
    rw [if_neg (by rw [free]; nofun), collected, Option.bind_some,
      if_neg fun fails => fails.2 history.counted, made]
    exact if_pos lt
  · rw [oldest']
    rcases gone with rfl | ⟨room, full, i, valid, at_, before, below⟩
    · rcases oldest with same | ⟨full, i, valid, at_, long, least⟩
      · exact .inl same
      · exact .inr ⟨full, i, valid, at_, .inr ⟨long, least⟩⟩
    · -- after a garbage collection there is room
      rcases oldest with same | ⟨full', -⟩
      · exact .inr ⟨full, i, valid, (same.trans at_).symm, .inl ⟨before, below⟩⟩
      · omega

/-- Then the latest version is copied to its row, which is none of the versions. -/
theorem prewrite (debug : Bool) (gThreadCnt : Nat) (minTs : WithTop Nat) (h : History r)
    (free : r.existsPrewrite = false) (newer : r.latestWts < ts) :
    ∃ q b a, r.prewrite debug gThreadCnt minTs ts =
        some { q with memory := Function.update r.memory b (r.memory a) } ∧
      History q ∧ Keeps r q ∧ q.existsPrewrite = true ∧ q.prewriteTs = ts ∧ q.resRow = some b ∧
        r.latestRow = some a ∧
          (q.oldestWts = r.oldestWts ∨ Retires gThreadCnt minTs r q.oldestWts) := by
  obtain ⟨q, reserved, history, keeps, pre, stamp, oldest⟩ :=
    h.reserveRow debug gThreadCnt minTs free newer
  have there := (history.pending pre).2.2.1
  obtain ⟨b, hb⟩ := Option.ne_none_iff_exists'.mp there
  obtain ⟨a, ha⟩ := Option.ne_none_iff_exists'.mp h.latest_ne
  refine ⟨q, b, a, ?_, history, keeps, pre, stamp, hb, ha, oldest⟩
  unfold RowMvcc.prewrite copyLatest
  rw [reserved, Option.bind_some, keeps.latestRow, hb, ha, keeps.memory]

/-- What is in the rows does not matter to the history. -/
theorem setMemory (h : History r) (memory : Nat → V) : History { r with memory := memory } :=
  ⟨h.nonempty, h.count, h.range, h.stamps, h.oldest_le, h.reserved, h.pending, h.base, h.rows,
    h.latest, h.distinct, h.allocated⟩

/-! ### The pre-write is committed or given up -/

/-- A pre-write that is newer than the versions becomes the latest one. -/
theorem commit (h : History r) (pre : r.existsPrewrite = true) (newer : r.latestWts < ts) :
    History (r.commit ts r.resRow) ∧ (∀ v b, r.Current v b → (r.commit ts r.resRow).Current v b) ∧
      (r.commit ts r.resRow).Current ts r.resRow := by
  obtain ⟨invalid, -, there, -⟩ := h.pending pre
  have lt : r.prewriteHisId < r.hisLen := by
    by_contra ge
    rw [resRow, entry_of_ge (Nat.not_lt.mp ge)] at there
    exact there rfl
  have entry (i : Nat) : (r.commit ts r.resRow).entry i = if i = r.prewriteHisId then
      { r.entry r.prewriteHisId with valid := true, ts := ts } else r.entry i :=
    entry_modifyEntry lt i
  have here : (r.commit ts r.resRow).entry r.prewriteHisId =
      { r.entry r.prewriteHisId with valid := true, ts := ts } := by
    rw [entry, if_pos rfl]
  have other (i : Nat) (hi : (r.entry i).valid = true) :
      (r.commit ts r.resRow).entry i = r.entry i := by
    rw [entry, if_neg]
    rintro rfl
    rw [invalid] at hi
    cases hi
  have valid (i : Nat) (hi : ((r.commit ts r.resRow).entry i).valid = true) :
      i = r.prewriteHisId ∨ (r.entry i).valid = true := by
    rw [entry] at hi
    split at hi
    · next e => exact .inl e
    · exact .inr hi
  have buffer (i : Option Nat) : (r.commit ts r.resRow).buffer i = r.buffer i := by
    cases i with
    | none => rfl
    | some i =>
      change ((r.commit ts r.resRow).entry i).row = (r.entry i).row
      rw [entry]
      split
      · next e => rw [e]
      · rfl
  have current (v : Nat) (b : Option Nat) (cur : r.Current v b) :
      (r.commit ts r.resRow).Current v b := by
    rcases cur with base | ⟨i, hi, at_, row⟩
    · exact .inl base
    · refine .inr ⟨i, ?_⟩
      rw [other i hi]
      exact ⟨hi, at_, row⟩
  -- the reserved entry becomes the latest version
  have new : (r.commit ts r.resRow).Current ts r.resRow := by
    refine .inr ⟨r.prewriteHisId, ?_⟩
    rw [here]
    exact ⟨rfl, rfl, rfl⟩
  refine ⟨?_, current, new⟩
  constructor
  case nonempty => exact Nat.lt_of_lt_of_eq h.nonempty (hisLen_modifyEntry _).symm
  case count =>
    -- one version more
    have one := countP_modify (·.valid) (fun e => { e with valid := true, ts := ts })
      (getElem?_entry lt)
    rw [invalid, h.count] at one
    exact one
  case range =>
    intro i hi
    change r.oldestWts < _ ∧ _ ≤ ts
    rcases valid i hi with rfl | was
    · rw [here]
      exact ⟨Nat.lt_of_le_of_lt h.oldest_le newer, Nat.le_refl _⟩
    · rw [other i was]
      have := h.range i was
      exact ⟨this.1, Nat.le_of_lt (Nat.lt_of_le_of_lt this.2 newer)⟩
  case stamps =>
    -- the new version is newer than all others
    have below (i : Nat) (hi : (r.entry i).valid = true) : (r.entry i).ts ≠ ts :=
      Nat.ne_of_lt (Nat.lt_of_le_of_lt (h.range i hi).2 newer)
    intro i j hi hj same
    rcases valid i hi with rfl | was
    · rcases valid j hj with rfl | was'
      · rfl
      · rw [here, other j was'] at same
        exact absurd same.symm (below j was')
    · rcases valid j hj with rfl | was'
      · rw [here, other i was] at same
        exact absurd same (below i was)
      · rw [other i was, other j was'] at same
        exact h.stamps i j was was' same
  case oldest_le => exact Nat.le_of_lt (Nat.lt_of_le_of_lt h.oldest_le newer)
  case reserved =>
    intro i reserved not
    rw [entry] at reserved not
    split at not
    · cases not
    · next ne =>
      rw [if_neg ne] at reserved
      exact absurd (h.reserved i reserved not).2 ne
  case pending => nofun
  case base => exact h.base
  case rows =>
    intro i hi
    rcases valid i hi with rfl | was
    · rw [here]
      exact there
    · rw [other i was]
      exact h.rows i was
  case latest => exact new
  case distinct =>
    intro i j same some
    rw [buffer] at same some
    rw [buffer] at same
    exact h.distinct i j same some
  case allocated =>
    intro i b at_
    rw [buffer] at at_
    exact h.allocated i b at_

/-- Giving up a pre-write leaves the versions alone. -/
theorem rollback (h : History r) (pre : r.existsPrewrite = true) :
    History r.rollback ∧ Keeps r r.rollback := by
  obtain ⟨invalid, -, there, -⟩ := h.pending pre
  have lt : r.prewriteHisId < r.hisLen := by
    by_contra ge
    rw [resRow, entry_of_ge (Nat.not_lt.mp ge)] at there
    exact there rfl
  have entry (i : Nat) : r.rollback.entry i = if i = r.prewriteHisId then
      { r.entry r.prewriteHisId with valid := false, reserved := false } else r.entry i :=
    entry_modifyEntry lt i
  -- the entry of the pre-write was no version, so the versions are the same
  have valid (i : Nat) : (r.rollback.entry i).valid = (r.entry i).valid ∧
      (r.rollback.entry i).ts = (r.entry i).ts ∧ (r.rollback.entry i).row = (r.entry i).row := by
    rw [entry]
    split
    · next e => exact ⟨by rw [e, invalid], by rw [e], by rw [e]⟩
    · exact ⟨rfl, rfl, rfl⟩
  have buffer (i : Option Nat) : r.rollback.buffer i = r.buffer i := by
    cases i with
    | none => rfl
    | some i => exact (valid i).2.2
  have current (v : Nat) (b : Option Nat) (cur : r.Current v b) : r.rollback.Current v b := by
    rcases cur with base | ⟨i, hi, at_, row⟩
    · exact .inl base
    · obtain ⟨v, ts, row'⟩ := valid i
      exact .inr ⟨i, v.trans hi, ts.trans at_, row'.trans row⟩
  constructor
  · constructor
    case nonempty => exact Nat.lt_of_lt_of_eq h.nonempty (hisLen_modifyEntry _).symm
    case count =>
      have one := countP_modify (·.valid) (fun e => { e with valid := false, reserved := false })
        (getElem?_entry lt)
      rw [invalid, h.count] at one
      exact one
    case range =>
      intro i hi
      rw [(valid i).1] at hi
      rw [(valid i).2.1]
      exact h.range i hi
    case stamps =>
      intro i j hi hj same
      rw [(valid i).1] at hi
      rw [(valid j).1] at hj
      rw [(valid i).2.1, (valid j).2.1] at same
      exact h.stamps i j hi hj same
    case oldest_le => exact h.oldest_le
    case reserved =>
      intro i reserved not
      rw [entry] at reserved not
      split at reserved
      · cases reserved
      · next ne =>
        rw [if_neg ne] at not
        exact absurd (h.reserved i reserved not).2 ne
    case pending => nofun
    case base => exact h.base
    case rows =>
      intro i hi
      rw [(valid i).1] at hi
      rw [(valid i).2.2]
      exact h.rows i hi
    case latest => exact current _ _ h.latest
    case distinct =>
      intro i j same some
      rw [buffer] at same some
      rw [buffer] at same
      exact h.distinct i j same some
    case allocated =>
      intro i b at_
      rw [buffer] at at_
      exact h.allocated i b at_
  · exact ⟨⟨rfl, rfl, rfl, Nat.le_refl _, fun v b _ cur => current v b cur⟩, rfl, rfl⟩

end History

end RowMvcc

end DBx1000.Mvcc
