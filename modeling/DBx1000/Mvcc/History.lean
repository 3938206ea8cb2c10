import DBx1000.Mvcc.Row
import Mathlib.Data.List.Basic

/-!
# The history of a row

What holds of the versions of a row between two calls of `access`, whatever requests wait. The
oldest version is behind `_row`, the newer ones are the valid entries, and no two of them share a
timestamp or a buffer. `Keeps` says what the reservation of an entry leaves alone: the versions
from the new oldest one on stay where they are.
-/

namespace DBx1000.Mvcc

open Scan

namespace RowMvcc

variable {V τ : Type*} {r r' : RowMvcc V τ} {gThreadCnt idx ts : Nat} {minTs : WithTop Nat}
variable {debug : Bool}

/-! ### Entries -/

theorem entry_of_ge {i : Nat} (ge : r.hisLen ≤ i) : r.entry i = .empty := by
  unfold entry
  rw [List.getElem?_eq_none ge]
  rfl

theorem lt_of_valid {i : Nat} (valid : (r.entry i).valid = true) : i < r.hisLen := by
  by_contra ge
  rw [entry_of_ge (Nat.not_lt.mp ge)] at valid
  cases valid

theorem getElem?_entry {i : Nat} (lt : i < r.hisLen) : r.writeHistory[i]? = some (r.entry i) := by
  unfold entry
  rw [List.getElem?_eq_getElem lt]
  rfl

theorem entry_of_getElem? {i : Nat} {e : WriteHisEntry} (at_ : r.writeHistory[i]? = some e) :
    i < r.hisLen ∧ r.entry i = e := by
  constructor
  · exact (List.getElem?_eq_some_iff.mp at_).1
  · unfold entry
    rw [at_]
    rfl

theorem exists_entry {e : WriteHisEntry} (he : e ∈ r.writeHistory) : ∃ i, r.entry i = e := by
  obtain ⟨i, hi⟩ := List.getElem?_of_mem he
  exact ⟨i, (entry_of_getElem? hi).2⟩

theorem entry_mem {i : Nat} (lt : i < r.hisLen) : r.entry i ∈ r.writeHistory :=
  List.mem_of_getElem? (getElem?_entry lt)

@[simp] theorem hisLen_modifyEntry (f : WriteHisEntry → WriteHisEntry) :
    (r.modifyEntry idx f).hisLen = r.hisLen := List.length_modify ..

theorem entry_modifyEntry {f : WriteHisEntry → WriteHisEntry} (lt : idx < r.hisLen) (i : Nat) :
    (r.modifyEntry idx f).entry i = if i = idx then f (r.entry idx) else r.entry i := by
  unfold entry modifyEntry
  rw [List.getElem?_modify]
  split
  · next e =>
    rw [if_pos e.symm, ← e, getElem?_entry (e ▸ lt)]
    rfl
  · next ne =>
    rw [if_neg (Ne.symm ne)]
    cases r.writeHistory[i]? <;> rfl

/-- The entry is made free. -/
def clear (r : RowMvcc V τ) (idx : Nat) : RowMvcc V τ :=
  r.modifyEntry idx fun e => { e with valid := false, reserved := false }

/-- One entry changes. -/
theorem countP_modify {α : Type*} (p : α → Bool) (f : α → α) {l : List α} {i : Nat} {a : α}
    (at_ : l[i]? = some a) :
    (l.modify i f).countP p + (p a).toNat = l.countP p + (p (f a)).toNat := by
  induction l generalizing i with
  | nil => cases at_
  | cons b l ih =>
    cases i with
    | zero =>
      obtain rfl : b = a := by simpa using at_
      rw [List.modify_zero_cons, List.countP_cons, List.countP_cons]
      cases p b <;> cases p (f b) <;> simp
    | succ i =>
      have := ih (i := i) (by simpa using at_)
      rw [List.modify_succ_cons, List.countP_cons, List.countP_cons]
      omega

/-- The entries that count are those up to a timestamp and the others. -/
theorem countP_forget (l : List WriteHisEntry) (ts : Nat) :
    (l.map fun e => if e.valid ∧ e.ts ≤ ts then { e with valid := false, reserved := false } else e).countP
        (·.valid) + l.countP (fun e => e.valid ∧ e.ts ≤ ts) = l.countP (·.valid) := by
  induction l with
  | nil => rfl
  | cons e l ih =>
    rw [List.map_cons, List.countP_cons, List.countP_cons, List.countP_cons]
    cases hv : e.valid with
    | false => simpa [hv] using ih
    | true =>
      by_cases le : e.ts ≤ ts
      · simp [le] at ih ⊢
        omega
      · simp [le, hv] at ih ⊢
        omega

/-! ### Buffers -/

/-- The row behind an entry, or the oldest one. -/
def buffer (r : RowMvcc V τ) : Option Nat → Option Nat
  | none => r.row
  | some i => (r.entry i).row

/-- The version is behind the row. -/
def Current (r : RowMvcc V τ) (v : Nat) (b : Option Nat) : Prop :=
  v = r.oldestWts ∧ b = r.row ∨ ∃ i, (r.entry i).valid = true ∧ (r.entry i).ts = v ∧ (r.entry i).row = b

structure History (r : RowMvcc V τ) : Prop where
  nonempty : 0 < r.hisLen
  count : r.writeHistory.countP (·.valid) = r.numVersions
  range : ∀ i, (r.entry i).valid = true → r.oldestWts < (r.entry i).ts ∧ (r.entry i).ts ≤ r.latestWts
  stamps : ∀ i j, (r.entry i).valid = true → (r.entry j).valid = true →
    (r.entry i).ts = (r.entry j).ts → i = j
  oldest_le : r.oldestWts ≤ r.latestWts
  /-- Only the entry of the pre-write is reserved and not valid. -/
  reserved : ∀ i, (r.entry i).reserved = true → (r.entry i).valid = false →
    r.existsPrewrite = true ∧ i = r.prewriteHisId
  pending : r.existsPrewrite = true → (r.entry r.prewriteHisId).valid = false ∧
    (r.entry r.prewriteHisId).reserved = true ∧ (r.resRow ≠ none ∧ r.latestWts < r.prewriteTs)
  base : r.row ≠ none
  rows : ∀ i, (r.entry i).valid = true → (r.entry i).row ≠ none
  latest : r.Current r.latestWts r.latestRow
  distinct : ∀ i j, r.buffer i = r.buffer j → r.buffer i ≠ none → i = j
  allocated : ∀ i b, r.buffer i = some b → b < r.fresh

/-- What calls that make no new version leave alone. -/
structure Stays (r r' : RowMvcc V τ) : Prop where
  latestWts : r'.latestWts = r.latestWts
  latestRow : r'.latestRow = r.latestRow
  requests : r'.requests = r.requests
  oldest : r.oldestWts ≤ r'.oldestWts
  current : ∀ v b, r'.oldestWts ≤ v → r.Current v b → r'.Current v b

/-- What the reservation of an entry leaves alone. -/
structure Keeps (r r' : RowMvcc V τ) : Prop extends Stays r r' where
  maxServedRts : r'.maxServedRts = r.maxServedRts
  memory : r'.memory = r.memory

theorem Stays.refl (r : RowMvcc V τ) : Stays r r :=
  ⟨rfl, rfl, rfl, Nat.le_refl _, fun _ _ _ h => h⟩

theorem Stays.trans {r'' : RowMvcc V τ} (h : Stays r r') (h' : Stays r' r'') : Stays r r'' where
  latestWts := h'.latestWts.trans h.latestWts
  latestRow := h'.latestRow.trans h.latestRow
  requests := h'.requests.trans h.requests
  oldest := Nat.le_trans h.oldest h'.oldest
  current v b le cur := h'.current v b le (h.current v b (Nat.le_trans h'.oldest le) cur)

theorem Keeps.refl (r : RowMvcc V τ) : Keeps r r := ⟨.refl r, rfl, rfl⟩

theorem Keeps.trans {r'' : RowMvcc V τ} (h : Keeps r r') (h' : Keeps r' r'') : Keeps r r'' :=
  ⟨h.toStays.trans h'.toStays, h'.maxServedRts.trans h.maxServedRts, h'.memory.trans h.memory⟩

namespace History

/-- A new row has one version. -/
theorem init {hisLen reqLen : Nat} {memory : Nat → V} (pos : 0 < hisLen) :
    History (RowMvcc.init τ hisLen reqLen memory) := by
  have empty (i : Nat) : (RowMvcc.init τ hisLen reqLen memory).entry i = .empty := by
    unfold entry
    by_cases lt : i < hisLen
    · rw [show (RowMvcc.init τ hisLen reqLen memory).writeHistory = List.replicate hisLen .empty
        from rfl, List.getElem?_replicate, if_pos lt]
      rfl
    · rw [show (RowMvcc.init τ hisLen reqLen memory).writeHistory = List.replicate hisLen .empty
        from rfl, List.getElem?_replicate, if_neg lt]
      rfl
  have only (i : Option Nat) (some : (RowMvcc.init τ hisLen reqLen memory).buffer i ≠ none) :
      i = none := by
    cases i with
    | none => rfl
    | some i =>
      rw [buffer, empty] at some
      exact absurd rfl some
  constructor
  case nonempty =>
    change 0 < (List.replicate hisLen WriteHisEntry.empty).length
    rw [List.length_replicate]
    exact pos
  case count =>
    change (List.replicate hisLen WriteHisEntry.empty).countP (·.valid) = 0
    rw [List.countP_replicate]
    rfl
  case range =>
    intro i valid
    rw [empty] at valid
    cases valid
  case stamps =>
    intro i j valid
    rw [empty] at valid
    cases valid
  case oldest_le => exact Nat.le_refl _
  case reserved =>
    intro i reserved
    rw [empty] at reserved
    cases reserved
  case pending => nofun
  case base => nofun
  case rows =>
    intro i valid
    rw [empty] at valid
    cases valid
  case latest => exact .inl ⟨rfl, rfl⟩
  case distinct =>
    intro i j same some
    rw [only i some, only j (same ▸ some)]
  case allocated =>
    intro i b at_
    obtain rfl := only i (by rw [at_]; nofun)
    rw [← Option.some.inj at_]
    exact Nat.one_pos

/-- The row of a version is not that of the pre-write. -/
theorem current_ne (h : History r) (pre : r.existsPrewrite = true) {v : Nat} {b : Option Nat}
    (cur : r.Current v b) : b ≠ r.resRow := by
  obtain ⟨invalid, -, there, -⟩ := h.pending pre
  intro is
  rcases cur with ⟨-, row⟩ | ⟨i, valid, -, row⟩
  · have := h.distinct none (some r.prewriteHisId) (row.symm.trans is) h.base
    cases this
  · have same : i = r.prewriteHisId :=
      Option.some.inj (h.distinct (some i) (some r.prewriteHisId) (row.trans is)
        (by change (r.entry i).row ≠ none; rw [row, is]; exact there))
    rw [same, invalid] at valid
    cases valid

theorem latest_ne (h : History r) : r.latestRow ≠ none := by
  rcases h.latest with ⟨-, is⟩ | ⟨i, valid, -, is⟩
  · rw [is]
    exact h.base
  · rw [← is]
    exact h.rows i valid

end History

end RowMvcc

end DBx1000.Mvcc
