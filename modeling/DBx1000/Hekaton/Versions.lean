import DBx1000.Hekaton.Row
import DBx1000.Library.Ring
import Mathlib.Data.List.Chain

/-!
# The versions of a row

The committed versions of a row are a window of the circular buffer; each ends where the
next begins, and the last one ends never or at a transaction that has yet to commit. A row
that the buffer holds is in one entry only.

## Proof strategy

`Layout` is about the indices and `Versions` about what the entries say, so the doubling of the
buffer moves the one and keeps the other.
-/

namespace DBx1000.Hekaton

namespace RowHekaton

variable {r : RowHekaton} {vs : List WriteHisEntry}

/-- Where the versions are. -/
structure Layout (r : RowHekaton) (vs : List WriteHisEntry) : Prop where
  window : Ring.Window r.hisLen r.writeHistory r.hisOldest vs
  nonempty : 0 < vs.length
  two : 2 ≤ r.hisLen
  latest : r.hisLatest = (r.hisOldest + (vs.length - 1)) % r.hisLen
  rows : ∀ e ∈ vs, e.row ≠ none
  distinct : ∀ i j, i < r.hisLen → j < r.hisLen →
    (r.writeHistory i).row = (r.writeHistory j).row → (r.writeHistory i).row ≠ none → i = j
  allocated : ∀ i b, i < r.hisLen → (r.writeHistory i).row = some b → b < r.fresh
  /-- Only the latest version may end at a transaction. -/
  closed : ∀ i, i < r.hisLen → i ≠ r.hisLatest → (r.writeHistory i).endTxn = false

/-- What the versions are. -/
structure Versions (r : RowHekaton) (vs : List WriteHisEntry) : Prop extends Layout r vs where
  room : r.existsPrewrite = true → vs.length < r.hisLen
  chain : vs.IsChain fun e f => e.endTxn = false ∧ e.endTs = WithTop.some f.begin
  open_ : ∀ e, vs.getLast? = some e →
    e.endTxn = r.existsPrewrite ∧ (r.existsPrewrite = false → e.endTs = ⊤)
  sorted : vs.Pairwise (·.begin < ·.begin)
  pending : r.existsPrewrite = true → r.behind.row ≠ none

theorem prev_next {i : Nat} (lt : i < r.hisLen) : r.prev (r.next i) = i := Ring.pred_succ_slot lt

namespace Layout

theorem next_latest (h : Layout r vs) : r.next r.hisLatest = (r.hisOldest + vs.length) % r.hisLen := by
  have := h.nonempty
  rw [next, h.latest, Ring.succ_slot]
  congr 2
  omega

theorem latest_lt (h : Layout r vs) : r.hisLatest < r.hisLen := by
  have := h.two
  rw [h.latest]
  exact Nat.mod_lt _ (by omega)

theorem getLast (h : Layout r vs) : vs.getLast? = some r.latest := by
  rw [h.window.last h.nonempty, ← h.latest]
  rfl

theorem next_lt (h : Layout r vs) : r.next r.hisLatest < r.hisLen :=
  Nat.mod_lt _ (Nat.lt_of_lt_of_le Nat.two_pos h.two)

theorem next_ne (h : Layout r vs) (room : vs.length < r.hisLen) : r.next r.hisLatest ≠ r.hisLatest := by
  intro is
  have slot := h.next_latest
  have fits := h.window.fits
  have pos := h.nonempty
  rw [is, h.latest] at slot
  have := Ring.slot_inj (by omega) room slot
  omega

theorem behind_closed (h : Layout r vs) (room : vs.length < r.hisLen) : r.behind.endTxn = false :=
  h.closed _ h.next_lt (h.next_ne room)

theorem latest_mem (h : Layout r vs) : r.latest ∈ vs := List.mem_of_getLast? h.getLast

theorem full_iff (h : Layout r vs) : r.full ↔ vs.length = r.hisLen := by
  rw [full, h.next_latest]
  constructor
  · intro full
    by_contra ne
    have := h.nonempty
    have lt : vs.length < r.hisLen := Nat.lt_of_le_of_ne h.window.fits ne
    have := Ring.slot_inj lt (by omega : 0 < r.hisLen)
      (full.trans (Ring.slot_zero h.window.first_lt).symm)
    omega
  · intro full
    rw [full, Nat.add_mod_right]
    exact Nat.mod_eq_of_lt h.window.first_lt

/-- The entry behind the versions is not one of them. -/
theorem behind_ne (h : Layout r vs) (room : vs.length < r.hisLen) {e : WriteHisEntry} (he : e ∈ vs)
    (row : e.row = r.behind.row) : False := by
  obtain ⟨i, hi, rfl⟩ := h.window.exists_of_mem he
  have pos : 0 < r.hisLen := Nat.lt_of_le_of_lt (Nat.zero_le _) h.window.first_lt
  rw [behind, h.next_latest] at row
  have same := h.distinct _ _ (Nat.mod_lt _ pos) (Nat.mod_lt _ pos) row (h.rows _ he)
  have := Ring.slot_inj (Nat.lt_trans hi room) room same
  omega

/-- A row is in one version. -/
theorem row_inj (h : Layout r vs) {e f : WriteHisEntry} (he : e ∈ vs) (hf : f ∈ vs)
    (row : e.row = f.row) : e = f := by
  have some := h.rows e he
  obtain ⟨i, -, rfl⟩ := h.window.exists_of_mem he
  obtain ⟨j, -, rfl⟩ := h.window.exists_of_mem hf
  have pos : 0 < r.hisLen := Nat.lt_of_le_of_lt (Nat.zero_le _) h.window.first_lt
  exact congrArg _ (h.distinct _ _ (Nat.mod_lt _ pos) (Nat.mod_lt _ pos) row some)

/-! ### Reservation -/

/-- The oldest version is forgotten. -/
theorem forget (h : Layout r vs) (more : 1 < vs.length) :
    Layout { r with hisOldest := r.next r.hisOldest } (vs.drop 1) := by
  constructor
  · exact h.window.drop (Nat.le_of_lt more)
  · rw [List.length_drop]
    omega
  · exact h.two
  · change r.hisLatest = ((r.hisOldest + 1) % r.hisLen + _) % r.hisLen
    rw [h.latest, Nat.mod_add_mod, List.length_drop]
    congr 1
    omega
  · exact fun e he => h.rows e (List.mem_of_mem_drop he)
  · exact h.distinct
  · exact h.allocated
  · exact h.closed

/-- The garbage collection forgets versions, but never the last one. -/
theorem collect (minTs : WithTop Nat) (fuel : Nat) (h : Layout r vs) (open_ : r.latest.endTs = ⊤) :
    ∃ k, k < vs.length ∧ Layout (r.collect minTs fuel) (vs.drop k) ∧
      (r.collect minTs fuel).existsPrewrite = r.existsPrewrite := by
  induction fuel generalizing r vs with
  | zero => exact ⟨0, h.nonempty, by rw [List.drop_zero]; exact h, rfl⟩
  | succ fuel ih =>
    rw [RowHekaton.collect]
    split
    · next lt =>
      -- the version that ends never is not collected
      have more : 1 < vs.length := by
        by_contra single
        have one : vs.length - 1 = 0 := by
          have := h.nonempty
          omega
        have := h.latest
        rw [one, Ring.slot_zero h.window.first_lt] at this
        have same : r.oldest = r.latest := by rw [oldest, ← this]; rfl
        rw [same, open_] at lt
        exact absurd lt not_top_lt
      obtain ⟨k, hk, layout, pre⟩ := ih (h.forget more) open_
      rw [List.length_drop] at hk
      rw [List.drop_drop] at layout
      exact ⟨1 + k, by omega, layout, pre⟩
    · exact ⟨0, h.nonempty, by rw [List.drop_zero]; exact h, rfl⟩

theorem double (h : Layout r vs) (full : vs.length = r.hisLen) : Layout r.doubleHistory vs := by
  have pos : 0 < r.hisLen := Nat.lt_of_le_of_lt (Nat.zero_le _) h.window.first_lt
  have copied (i : Nat) (lt : i < r.hisLen) :
      r.doubleHistory.writeHistory i = r.writeHistory ((r.hisOldest + i) % r.hisLen) := if_pos lt
  -- the new half has no rows, so a row stands at a copied index
  have some_lt (i : Nat) (some : (r.doubleHistory.writeHistory i).row ≠ none) : i < r.hisLen := by
    by_contra ge
    exact some (congrArg WriteHisEntry.row (if_neg ge))
  constructor
  case window => exact h.window.unroll (Nat.le_mul_of_pos_right _ (by decide)) copied
  case nonempty => exact h.nonempty
  case two => exact Nat.le_trans h.two (Nat.le_mul_of_pos_right _ (by decide))
  case latest =>
    change r.hisLen - 1 = (0 + (vs.length - 1)) % (r.hisLen * 2)
    rw [full, Nat.zero_add, Nat.mod_eq_of_lt (by omega)]
  case rows => exact h.rows
  -- two copies of one row come from one slot of the old ring
  case distinct =>
    intro i j _ _ same some
    have hi := some_lt i some
    have hj := some_lt j (same ▸ some)
    rw [copied i hi] at same some
    rw [copied j hj] at same
    exact Ring.slot_inj hi hj (h.distinct _ _ (Nat.mod_lt _ pos) (Nat.mod_lt _ pos) same some)
  case allocated =>
    intro i b _ row
    have hi := some_lt i (by rw [row]; exact Option.some_ne_none b)
    rw [copied i hi] at row
    exact h.allocated _ b (Nat.mod_lt _ pos) row
  case closed =>
    intro i _ ne
    by_cases hi : i < r.hisLen
    · rw [copied i hi]
      refine h.closed _ (Nat.mod_lt _ pos) fun is => ne ?_
      -- the latest version is the last of the full window
      rw [h.latest, full] at is
      exact Ring.slot_inj hi (show r.hisLen - 1 < r.hisLen by omega) is
    · exact congrArg WriteHisEntry.endTxn (if_neg hi)

theorem makeRoom (gThreadCnt : Nat) (h : Layout r vs) :
    ∃ k, k < vs.length ∧ Layout (r.makeRoom gThreadCnt).1 (vs.drop k) ∧
      (vs.drop k).length < (r.makeRoom gThreadCnt).1.hisLen ∧
      (r.makeRoom gThreadCnt).2 = (r.makeRoom gThreadCnt).1.next (r.makeRoom gThreadCnt).1.hisLatest ∧
      (r.makeRoom gThreadCnt).1.existsPrewrite = r.existsPrewrite := by
  have two := h.two
  have fits := h.window.fits
  unfold RowHekaton.makeRoom
  split
  · -- the ring has room
    next space =>
    rw [h.full_iff] at space
    refine ⟨0, h.nonempty, ?_, ?_, rfl, rfl⟩
    · rw [List.drop_zero]
      exact h
    · rw [List.drop_zero]
      exact Nat.lt_of_le_of_ne fits space
  · next full =>
    have full := h.full_iff.mp (not_not.mp full)
    split
    · refine ⟨0, h.nonempty, ?_, ?_, rfl, rfl⟩
      · rw [List.drop_zero]
        exact h.double full
      · rw [List.drop_zero, full]
        change r.hisLen < r.hisLen * 2
        omega
    · -- the oldest version gives way to the new one
      refine ⟨1, by omega, h.forget (by omega), ?_, ?_, rfl⟩
      · rw [List.length_drop]
        change vs.length - 1 < r.hisLen
        omega
      · change r.hisOldest = r.next r.hisLatest
        exact (h.full_iff.mpr full).symm

/-- Entries may change as long as they keep their rows. -/
theorem setEntry_behind (h : Layout r vs) (room : vs.length < r.hisLen) {e : WriteHisEntry}
    (row : e.row = r.behind.row) (closed : e.endTxn = false) : Layout (r.setEntry (r.next r.hisLatest) e) vs := by
  -- rows and window stay, the entry is behind the latest version
  have same (i : Nat) : ((r.setEntry (r.next r.hisLatest) e).writeHistory i).row =
      (r.writeHistory i).row := by
    change (Function.update r.writeHistory _ e i).row = _
    rw [Function.update_apply]
    split
    · next is => rw [row, is]; rfl
    · rfl
  constructor
  case window =>
    have := h.window.update_behind (v := e) (Nat.le_refl _) room
    rw [← h.next_latest] at this
    exact this
  case nonempty => exact h.nonempty
  case two => exact h.two
  case latest => exact h.latest
  case rows => exact h.rows
  case distinct =>
    intro i j hi hj eq some
    rw [same, same] at eq
    rw [same] at some
    exact h.distinct i j hi hj eq some
  case allocated =>
    intro i b hi some
    rw [same] at some
    exact h.allocated i b hi some
  case closed =>
    intro i hi ne
    change (Function.update r.writeHistory _ e i).endTxn = false
    rw [Function.update_apply]
    split
    · exact closed
    · exact h.closed i hi ne

theorem setEntry_latest (h : Layout r vs) {e : WriteHisEntry} (row : e.row = r.latest.row) :
    Layout (r.setEntry r.hisLatest e) (vs.set (vs.length - 1) e) := by
  -- no row changes its place
  have same (i : Nat) : ((r.setEntry r.hisLatest e).writeHistory i).row =
      (r.writeHistory i).row := by
    change (Function.update r.writeHistory _ e i).row = _
    rw [Function.update_apply]
    split
    · next is => rw [row, is]; rfl
    · rfl
  have pos := h.nonempty
  constructor
  case window =>
    have := h.window.update (v := e) (j := vs.length - 1) (by omega)
    rw [← h.latest] at this
    exact this
  case nonempty =>
    rw [List.length_set]
    exact pos
  case two => exact h.two
  case latest =>
    rw [List.length_set]
    exact h.latest
  case rows =>
    intro f hf
    rcases List.mem_or_eq_of_mem_set hf with hf | rfl
    · exact h.rows f hf
    · rw [row]
      exact h.rows _ h.latest_mem
  case distinct =>
    intro i j hi hj eq some
    rw [same, same] at eq
    rw [same] at some
    exact h.distinct i j hi hj eq some
  case allocated =>
    intro i b hi some
    rw [same] at some
    exact h.allocated i b hi some
  case closed =>
    intro i hi ne
    change i ≠ r.hisLatest at ne
    change (Function.update r.writeHistory _ e i).endTxn = false
    rw [Function.update_of_ne ne]
    exact h.closed i hi ne

theorem allocRow (h : Layout r vs) (room : vs.length < r.hisLen) :
    Layout (r.allocRow (r.next r.hisLatest)) vs ∧
      (r.allocRow (r.next r.hisLatest)).behind.row ≠ none := by
  unfold RowHekaton.allocRow
  split
  · next empty =>
    have at_ : ({ r.setEntry (r.next r.hisLatest) { r.writeHistory (r.next r.hisLatest) with
        row := some r.fresh } with fresh := r.fresh + 1 } : RowHekaton).writeHistory (r.next r.hisLatest) =
          { r.writeHistory (r.next r.hisLatest) with row := some r.fresh } := Function.update_self ..
    have off (i : Nat) (ne : i ≠ r.next r.hisLatest) :
        ({ r.setEntry (r.next r.hisLatest) { r.writeHistory (r.next r.hisLatest) with
          row := some r.fresh } with fresh := r.fresh + 1 } : RowHekaton).writeHistory i =
            r.writeHistory i := Function.update_of_ne ne ..
    -- the ring has no row that is not allocated yet
    have new (i : Nat) (hi : i < r.hisLen) : (r.writeHistory i).row ≠ some r.fresh := fun is =>
      Nat.lt_irrefl _ (h.allocated i _ hi is)
    constructor
    · constructor
      case window =>
        have := h.window.update_behind (Nat.le_refl _) room
          (v := { r.writeHistory (r.next r.hisLatest) with row := some r.fresh })
        rw [← h.next_latest] at this
        exact this
      case nonempty => exact h.nonempty
      case two => exact h.two
      case latest => exact h.latest
      case rows => exact h.rows
      -- so the new row is at no other index
      case distinct =>
        intro i j hi hj eq some
        by_cases ei : i = r.next r.hisLatest
        · by_cases ej : j = r.next r.hisLatest
          · rw [ei, ej]
          · rw [ei, at_, off j ej] at eq
            exact absurd eq.symm (new j hj)
        · rw [off i ei] at eq some
          by_cases ej : j = r.next r.hisLatest
          · rw [ej, at_] at eq
            exact absurd eq (new i hi)
          · rw [off j ej] at eq
            exact h.distinct i j hi hj eq some
      case allocated =>
        intro i b hi row
        by_cases ei : i = r.next r.hisLatest
        · rw [ei, at_] at row
          rw [← Option.some.inj row]
          exact Nat.lt_succ_self _
        · rw [off i ei] at row
          exact Nat.lt_succ_of_lt (h.allocated i b hi row)
      case closed =>
        intro i hi ne
        by_cases ei : i = r.next r.hisLatest
        · rw [ei, at_]
          exact h.behind_closed room
        · rw [off i ei]
          exact h.closed i hi ne
    · intro is
      have : (({ r.writeHistory (r.next r.hisLatest) with row := some r.fresh } :
          WriteHisEntry).row) = none := by
        rw [← at_]
        exact is
      cases this
  · -- the entry keeps the row of an older version
    next some => exact ⟨h, some⟩

theorem reserveRow (gThreadCnt : Nat) (minTs : WithTop Nat) (h : Layout r vs)
    (open_ : r.latest.endTs = ⊤) :
    ∃ k r', k < vs.length ∧ r.reserveRow gThreadCnt minTs = (r', r'.next r'.hisLatest) ∧
      Layout r' (vs.drop k) ∧ (vs.drop k).length < r'.hisLen ∧ r'.behind.row ≠ none ∧
      r'.existsPrewrite = r.existsPrewrite := by
  -- the collector and the making of room give up versions at the old end
  have collected : ∃ k, k < vs.length ∧
      Layout (if r.full ∧ minTs > r.oldest.endTs then r.collect minTs r.hisLen else r) (vs.drop k) ∧
        (if r.full ∧ minTs > r.oldest.endTs then r.collect minTs r.hisLen else r).existsPrewrite =
          r.existsPrewrite := by
    split
    · exact h.collect minTs r.hisLen open_
    · exact ⟨0, h.nonempty, by rw [List.drop_zero]; exact h, rfl⟩
  obtain ⟨k, hk, layout, pre⟩ := collected
  unfold RowHekaton.reserveRow
  generalize (if r.full ∧ minTs > r.oldest.endTs then r.collect minTs r.hisLen else r) = q at *
  obtain ⟨m, hm, layout, room, idx, pre'⟩ := layout.makeRoom gThreadCnt
  rw [List.length_drop] at hm
  rw [List.drop_drop] at layout room
  obtain ⟨layout, some⟩ := layout.allocRow room
  rw [← idx] at layout some
  refine ⟨k + m, (q.makeRoom gThreadCnt).1.allocRow (q.makeRoom gThreadCnt).2, by omega, ?_, layout,
    ?_, some, ?_⟩
  · -- `allocRow` only names a row
    have keeps : ((q.makeRoom gThreadCnt).1.allocRow (q.makeRoom gThreadCnt).2).next
        ((q.makeRoom gThreadCnt).1.allocRow (q.makeRoom gThreadCnt).2).hisLatest =
          (q.makeRoom gThreadCnt).1.next (q.makeRoom gThreadCnt).1.hisLatest := by
      unfold RowHekaton.allocRow
      split <;> rfl
    rw [keeps, ← idx]
  · have keeps : ((q.makeRoom gThreadCnt).1.allocRow (q.makeRoom gThreadCnt).2).hisLen =
        (q.makeRoom gThreadCnt).1.hisLen := by
      unfold RowHekaton.allocRow
      split <;> rfl
    rw [keeps]
    exact room
  · have keeps : ((q.makeRoom gThreadCnt).1.allocRow (q.makeRoom gThreadCnt).2).existsPrewrite =
        (q.makeRoom gThreadCnt).1.existsPrewrite := by
      unfold RowHekaton.allocRow
      split <;> rfl
    rw [keeps, pre', pre]

end Layout

theorem versions_init : Versions init [⟨false, false, 0, ⊤, some 0⟩] where
  window := ⟨by decide, by decide, fun i hi => by
    obtain rfl : i = 0 := by simpa using hi
    rfl⟩
  nonempty := by decide
  two := by decide
  latest := rfl
  rows := by simp
  distinct i j hi hj same some := by
    have zero (i : Nat) (h : (init.writeHistory i).row ≠ none) : i = 0 := by
      by_contra ne
      exact h (congrArg WriteHisEntry.row (if_neg ne))
    rw [zero i some, zero j (same ▸ some)]
  allocated i b hi row := by
    by_cases zero : i = 0
    · rw [zero] at row
      rw [← Option.some.inj row]
      exact Nat.one_pos
    · have : (init.writeHistory i).row = none := congrArg WriteHisEntry.row (if_neg zero)
      rw [this] at row
      cases row
  closed i _ ne := congrArg WriteHisEntry.endTxn (if_neg ne)
  room := nofun
  chain := .singleton _
  open_ e he := by
    obtain rfl := Option.some.inj he
    exact ⟨rfl, fun _ => rfl⟩
  sorted := List.pairwise_singleton ..
  pending := nofun

namespace Layout

/-- What the backward scan finds is a version with the row. -/
theorem find_mem (h : Layout r vs) {row : Option Nat} {e : WriteHisEntry} (fuel i : Nat)
    (hi : i < vs.length) (found : r.find row fuel ((r.hisOldest + i) % r.hisLen) = some e) :
    e ∈ vs ∧ e.row = row := by
  induction fuel generalizing i with
  | zero => cases found
  | succ fuel ih =>
    rw [RowHekaton.find] at found
    split at found
    · next same =>
      rw [← Option.some.inj found]
      exact ⟨h.window.mem hi, same⟩
    · split at found
      · cases found
      · next more =>
        -- the scan has not reached the oldest version
        cases i with
        | zero => exact absurd (Ring.slot_zero h.window.first_lt) more
        | succ i =>
          have pos : 0 < r.hisLen := Nat.lt_of_le_of_lt (Nat.zero_le _) h.window.first_lt
          have back : r.prev ((r.hisOldest + (i + 1)) % r.hisLen) = (r.hisOldest + i) % r.hisLen := by
            rw [← Ring.succ_slot]
            exact prev_next (Nat.mod_lt _ pos)
          rw [back] at found
          exact ih i (by omega) found

/-- What the search of `access` returns is a version, if it has one to look at. -/
theorem search_mem (h : Layout r vs) {ts : Nat} {e : WriteHisEntry} (fuel i : Nat)
    (hi : i + 1 < vs.length)
    (found : r.search ts fuel ((r.hisOldest + (i + 1)) % r.hisLen) = .ok e) : e ∈ vs := by
  induction fuel generalizing i with
  | zero => cases found
  | succ fuel ih =>
    have pos : 0 < r.hisLen := Nat.lt_of_le_of_lt (Nat.zero_le _) h.window.first_lt
    have back : r.prev ((r.hisOldest + (i + 1)) % r.hisLen) = (r.hisOldest + i) % r.hisLen := by
      rw [← Ring.succ_slot]
      exact prev_next (Nat.mod_lt _ pos)
    simp only [RowHekaton.search, back] at found
    split at found
    · split at found
      · injection found with found
        rw [← found]
        exact h.window.mem (by omega)
      · cases found
    · split at found
      · cases found
      · next more =>
        cases i with
        | zero => exact absurd (Ring.slot_zero h.window.first_lt) more
        | succ i => exact ih i (by omega) found

end Layout

namespace Versions

/-- An `R_REQ` returns a version, unless its timestamp is that of a version. -/
theorem read_mem (h : Versions r vs) {ts : Nat} {e : WriteHisEntry}
    (new : ∀ e ∈ vs, e.begin ≠ ts) (found : r.read ts = .ok e) : e ∈ vs := by
  unfold RowHekaton.read at found
  split at found
  · cases found
  · next old =>
    split at found
    · injection found with found
      rw [← found]
      exact h.latest_mem
    · next young =>
      -- with a single version the timestamp would be that of the version
      have more : 1 < vs.length := by
        by_contra single
        have one : vs.length - 1 = 0 := by
          have := h.nonempty
          omega
        have := h.latest
        rw [one, Ring.slot_zero h.window.first_lt] at this
        have same : r.oldest = r.latest := by rw [oldest, ← this]; rfl
        rw [same] at old
        exact new _ h.latest_mem (by omega)
      rw [h.latest, show vs.length - 1 = (vs.length - 2) + 1 by omega] at found
      exact h.search_mem _ _ (by omega) found

/-- A version with a successor ends where that begins. -/
theorem ends (h : Versions r vs) {front back : List WriteHisEntry} {e f : WriteHisEntry}
    (split : vs = front ++ e :: f :: back) : e.endTxn = false ∧ e.endTs = WithTop.some f.begin := by
  have chain := h.chain
  rw [split] at chain
  exact (List.isChain_append_cons_cons.mp chain).2.1

/-- When `prepare_read` succeeds, the version is the one that was read, and unless a transaction
is about to end it, no version begins between it and the commit timestamp. -/
theorem prepared (h : Versions r vs) {ts commitTs : Nat} {row : Option Nat}
    (ok : r.prepareRead ts row commitTs = .RCOK) :
    ∃ e ∈ vs, r.find row r.hisLen r.hisLatest = some e ∧ e.row = row ∧ e.begin ≤ ts ∧
      (∀ f ∈ vs, f.begin ≤ e.begin ∨ commitTs ≤ f.begin) ∧
        (e.endTxn = true ∨ r.existsPrewrite = false ∨ ∃ f ∈ vs, commitTs ≤ f.begin) := by
  unfold prepareRead at ok
  split at ok
  · cases ok
  · next e found =>
    have start := found
    rw [h.latest] at start
    obtain ⟨mem, same⟩ := h.find_mem _ _ (by have := h.nonempty; omega) start
    split at ok
    · cases ok
    · next begun =>
      -- a version that is not being ended ends after the commit timestamp
      have late : e.endTxn = false → WithTop.some commitTs ≤ e.endTs := by
        intro closed
        split at ok
        · next gt => exact le_of_lt gt.2
        · split at ok
          · cases ok
          · next ge => simpa [closed] using ge
      refine ⟨e, mem, found, same, by omega, ?_, ?_⟩
      · -- versions before are older, and the next one begins where this one ends
        obtain ⟨front, back, split⟩ := List.append_of_mem mem
        have sorted := h.sorted
        rw [split] at sorted
        obtain ⟨-, sorted, before⟩ := List.pairwise_append.mp sorted
        intro f hf
        rw [split] at hf
        rcases List.mem_append.mp hf with hf | hf
        · exact .inl (Nat.le_of_lt (before f hf e List.mem_cons_self))
        · rcases List.mem_cons.mp hf with rfl | hf
          · exact .inl (Nat.le_refl _)
          · -- the version ends where the next one begins
            cases back with
            | nil => cases hf
            | cons g back =>
              obtain ⟨closed, end_⟩ := h.ends split
              have := late closed
              rw [end_] at this
              have le : commitTs ≤ g.begin := WithTop.coe_le_coe.mp this
              right
              rcases List.mem_cons.mp hf with rfl | hf
              · exact le
              · have later := (List.pairwise_cons.mp (List.pairwise_cons.mp sorted).2).1 f hf
                exact Nat.le_trans le (Nat.le_of_lt later)
      · -- it is the latest one, or the next one begins after the commit timestamp
        cases ends : e.endTxn with
        | true => exact .inl rfl
        | false =>
          right
          obtain ⟨front, back, split⟩ := List.append_of_mem mem
          cases back with
          | nil =>
            have last := h.open_ e (by rw [split]; simp)
            rw [ends] at last
            exact .inl last.1.symm
          | cons g back =>
            have := late ends
            rw [(h.ends split).2] at this
            refine .inr ⟨g, ?_, WithTop.coe_le_coe.mp this⟩
            rw [split]
            simp

/-! ### The steps of a writer -/

/-- The timestamps and the rows of versions. -/
def ids (vs : List WriteHisEntry) : List (Nat × Option Nat) := vs.map fun e => (e.begin, e.row)

theorem dropLast_append (h : Layout r vs) : vs = vs.dropLast ++ [r.latest] := by
  have ne : vs ≠ [] := List.ne_nil_of_length_pos h.nonempty
  have := h.getLast
  rw [List.getLast?_eq_some_getLast ne] at this
  rw [← Option.some.inj this, List.dropLast_append_getLast ne]

theorem set_last (h : Layout r vs) (e : WriteHisEntry) :
    vs.set (vs.length - 1) e = vs.dropLast ++ [e] := by
  conv_lhs => rw [dropLast_append h]
  have : (vs.dropLast ++ [r.latest]).length - 1 = vs.dropLast.length := by simp
  rw [this, List.set_append_right _ _ (Nat.le_refl _), Nat.sub_self]
  rfl

/-- The last version may end otherwise. -/
theorem chain_set_last (h : Layout r vs)
    (chain : vs.IsChain fun e f => e.endTxn = false ∧ e.endTs = WithTop.some f.begin) {e : WriteHisEntry}
    (same : e.begin = r.latest.begin) :
    (vs.dropLast ++ [e]).IsChain fun e f => e.endTxn = false ∧ e.endTs = WithTop.some f.begin := by
  rw [dropLast_append h] at chain
  obtain ⟨front, -, link⟩ := List.isChain_append.mp chain
  refine List.isChain_append.mpr ⟨front, .singleton _, fun x hx y hy => ?_⟩
  obtain rfl : e = y := by simpa using hy
  rw [same]
  exact link x hx r.latest (by simp)

theorem ids_set_last (h : Layout r vs) {e : WriteHisEntry} (begin : e.begin = r.latest.begin)
    (row : e.row = r.latest.row) : ids (vs.dropLast ++ [e]) = ids vs := by
  conv_rhs => rw [dropLast_append h]
  simp [ids, begin, row]

theorem sorted_of_ids {vs ws : List WriteHisEntry} (same : ids ws = ids vs)
    (sorted : vs.Pairwise (·.begin < ·.begin)) : ws.Pairwise (·.begin < ·.begin) := by
  have : (ids vs).Pairwise (fun x y => x.1 < y.1) := List.pairwise_map.mpr sorted
  rw [← same, ids, List.pairwise_map] at this
  exact this

/-- A pre-write keeps the versions but for the oldest ones. -/
theorem prewrite (h : Versions r vs) {gThreadCnt txnId ts : Nat} {minTs : WithTop Nat}
    {r' : RowHekaton} {row : Option Nat} (ok : r.prewrite gThreadCnt minTs txnId ts = some (r', row)) :
    r.existsPrewrite = false ∧ r'.existsPrewrite = true ∧
      (r'.behind.beginTxn = true ∧ r'.behind.begin = txnId ∧ r'.behind.row = row ∧
        r'.latest.endTs = WithTop.some txnId) ∧
        ∃ ws, Versions r' ws ∧ ids ws <:+ ids vs := by
  unfold RowHekaton.prewrite at ok
  split at ok
  · cases ok
  · next go =>
    -- a second pre-write is refused
    have none : r.existsPrewrite = false := by
      by_contra some
      exact go (.inl (by simpa using some))
    have layout : Layout { r with existsPrewrite := true } vs :=
      ⟨h.window, h.nonempty, h.two, h.latest, h.rows, h.distinct, h.allocated, h.closed⟩
    have never : r.latest.endTs = ⊤ := (h.open_ _ h.getLast).2 none
    obtain ⟨k, q, hk, reserve, layout, room, some, pre⟩ :=
      layout.reserveRow gThreadCnt minTs never
    rw [reserve] at ok
    have ok := Option.some.inj ok
    have lt := layout.latest_lt
    rw [show ∀ e, (q.setEntry (q.next q.hisLatest) e).prev (q.next q.hisLatest) = q.hisLatest from
      fun _ => prev_next lt] at ok
    -- first the new version is marked, then the end of the latest one
    have first := layout.setEntry_behind room
      (e := { q.writeHistory (q.next q.hisLatest) with beginTxn := true, begin := txnId }) rfl
      (layout.behind_closed room)
    generalize hq : q.setEntry (q.next q.hisLatest)
      { q.writeHistory (q.next q.hisLatest) with beginTxn := true, begin := txnId } = p at ok first
    have latest : p.hisLatest = q.hisLatest := by rw [← hq]; rfl
    have second := first.setEntry_latest
      (e := { p.writeHistory q.hisLatest with endTxn := true, endTs := WithTop.some txnId })
      (by rw [← latest]; rfl)
    rw [set_last first, latest] at second
    have last : p.writeHistory q.hisLatest = p.latest := by rw [← latest]; rfl
    have begin : (p.writeHistory q.hisLatest).begin = p.latest.begin := by rw [last]
    have exists_ : p.existsPrewrite = true := by
      rw [← hq]
      exact pre
    have result : r' = p.setEntry q.hisLatest
        { p.writeHistory q.hisLatest with endTxn := true, endTs := WithTop.some txnId } :=
      (congrArg Prod.fst ok).symm
    -- the begins and rows of the versions stay
    have kept : ids ((vs.drop k).dropLast ++
        [{ p.writeHistory q.hisLatest with endTxn := true, endTs := WithTop.some txnId }]) = ids (vs.drop k) :=
      ids_set_last first begin (by rw [← last])
    subst result
    -- the latest version is not the entry behind it
    have off : p.next p.hisLatest ≠ q.hisLatest := by
      rw [← latest]
      exact first.next_ne (by rw [← hq]; exact room)
    have keep : (p.setEntry q.hisLatest
        { p.writeHistory q.hisLatest with endTxn := true, endTs := WithTop.some txnId }).behind = p.behind :=
      Function.update_of_ne off ..
    have new : (q.setEntry (q.next q.hisLatest)
        { q.writeHistory (q.next q.hisLatest) with beginTxn := true, begin := txnId }).behind =
          { q.writeHistory (q.next q.hisLatest) with beginTxn := true, begin := txnId } :=
      Function.update_self ..
    have behind : (p.setEntry q.hisLatest
        { p.writeHistory q.hisLatest with endTxn := true, endTs := WithTop.some txnId }).behind =
          { q.writeHistory (q.next q.hisLatest) with beginTxn := true, begin := txnId } := by
      rw [keep, ← hq]
      exact new
    have row_ : (q.writeHistory (q.next q.hisLatest)).row = row := by
      have row_ := congrArg Prod.snd ok
      have at_ : (p.setEntry q.hisLatest
          { p.writeHistory q.hisLatest with endTxn := true, endTs := WithTop.some txnId }).writeHistory
            (q.next q.hisLatest) = { q.writeHistory (q.next q.hisLatest) with
              beginTxn := true, begin := txnId } := by
        rw [← behind, ← hq]
        rfl
      dsimp only at row_
      rw [at_] at row_
      exact row_
    refine ⟨none, exists_, ?_, _, ⟨second, ?_, ?_, ?_, ?_, ?_⟩, ?_⟩
    · have last' : (p.setEntry q.hisLatest
          { p.writeHistory q.hisLatest with endTxn := true, endTs := WithTop.some txnId }).latest =
            { p.writeHistory q.hisLatest with endTxn := true, endTs := WithTop.some txnId } := by
        change Function.update p.writeHistory q.hisLatest _ p.hisLatest = _
        rw [latest]
        exact Function.update_self ..
      rw [behind, last']
      exact ⟨rfl, rfl, row_, rfl⟩
    · intro _
      have : ((vs.drop k).dropLast ++
          [{ p.writeHistory q.hisLatest with endTxn := true, endTs := WithTop.some txnId }]).length =
            (vs.drop k).length := by
        have := congrArg List.length kept
        simpa [ids] using this
      rw [this]
      change (vs.drop k).length < p.hisLen
      rw [← hq]
      exact room
    · exact chain_set_last first (h.chain.drop k) begin
    · intro e he
      rw [List.getLast?_concat] at he
      rw [← Option.some.inj he]
      refine ⟨exists_.symm, fun no => ?_⟩
      change p.existsPrewrite = false at no
      rw [exists_] at no
      cases no
    · exact sorted_of_ids kept (h.sorted.sublist (List.drop_sublist k vs))
    · intro _
      rw [behind]
      exact some
    · rw [kept]
      exact (List.drop_suffix k vs).map _

/-- An abort takes the end of the latest version back. -/
theorem postProcess_abort (h : Versions r vs) (commitTs : Nat) :
    (r.postProcess commitTs .Abort).existsPrewrite = false ∧
      ∃ ws, Versions (r.postProcess commitTs .Abort) ws ∧ ids ws = ids vs := by
  have layout := h.toLayout.setEntry_latest
    (e := { r.latest with endTxn := false, endTs := ⊤ }) rfl
  rw [set_last h.toLayout] at layout
  have kept : ids (vs.dropLast ++ [{ r.latest with endTxn := false, endTs := ⊤ }]) = ids vs :=
    ids_set_last h.toLayout rfl rfl
  refine ⟨rfl, _, ⟨⟨layout.window, layout.nonempty, layout.two, layout.latest, layout.rows,
    layout.distinct, layout.allocated, layout.closed⟩, nofun, ?_, ?_, ?_, nofun⟩, kept⟩
  · exact chain_set_last h.toLayout h.chain rfl
  · intro e he
    rw [List.getLast?_concat] at he
    rw [← Option.some.inj he]
    exact ⟨rfl, fun _ => rfl⟩
  · exact sorted_of_ids kept h.sorted

/-- A commit puts the pre-written version behind the others. -/
theorem postProcess_commit (h : Versions r vs) {commitTs : Nat} (pre : r.existsPrewrite = true)
    (newer : ∀ e ∈ vs, e.begin < commitTs) :
    (r.postProcess commitTs .RCOK).existsPrewrite = false ∧
      ∃ ws, Versions (r.postProcess commitTs .RCOK) ws ∧
        ids ws = ids vs ++ [(commitTs, r.behind.row)] := by
  have room := h.room pre
  -- the latest version ends at the commit timestamp, and the entry behind begins there
  have first := h.toLayout.setEntry_latest
    (e := { r.latest with endTxn := false, endTs := WithTop.some commitTs }) rfl
  rw [set_last h.toLayout] at first
  have kept : ids (vs.dropLast ++ [{ r.latest with endTxn := false, endTs := WithTop.some commitTs }]) = ids vs :=
    ids_set_last h.toLayout rfl rfl
  have len : (vs.dropLast ++ [{ r.latest with endTxn := false, endTs := WithTop.some commitTs }]).length =
      vs.length := by
    have := congrArg List.length kept
    simpa [ids] using this
  have chain := chain_set_last h.toLayout h.chain
    (e := { r.latest with endTxn := false, endTs := WithTop.some commitTs }) rfl
  generalize hws : vs.dropLast ++ [{ r.latest with endTxn := false, endTs := WithTop.some commitTs }] = ws at *
  have last : ws.getLast? = some { r.latest with endTxn := false, endTs := WithTop.some commitTs } := by
    rw [← hws]
    simp
  generalize hq : r.setEntry r.hisLatest { r.latest with endTxn := false, endTs := WithTop.some commitTs } = q
    at first
  have room' : ws.length < q.hisLen := by
    rw [len, ← hq]
    exact room
  -- the entry behind the versions is not the latest one
  have off := h.toLayout.next_ne room
  have closed := h.toLayout.behind_closed room
  have behind : q.writeHistory (r.next r.hisLatest) = r.behind := by
    rw [← hq]
    exact Function.update_of_ne off ..
  have second := first.setEntry_behind room'
    (e := { q.writeHistory (r.next r.hisLatest) with begin := commitTs, endTs := ⊤ })
    (by rw [← hq]; rfl) (by change (q.writeHistory _).endTxn = false; rw [behind]; exact closed)
  have result : r.postProcess commitTs .RCOK =
      { q.setEntry (r.next r.hisLatest)
          { q.writeHistory (r.next r.hisLatest) with begin := commitTs, endTs := ⊤ } with
        existsPrewrite := false, hisLatest := r.next r.hisLatest } := by
    rw [← hq]
    rfl
  have next : q.next q.hisLatest = r.next r.hisLatest := by rw [← hq]; rfl
  rw [next] at second
  generalize hp : q.setEntry (r.next r.hisLatest)
    { q.writeHistory (r.next r.hisLatest) with begin := commitTs, endTs := ⊤ } = p at result second
  -- the window grows by that entry
  have slot : (p.hisOldest + ws.length) % p.hisLen = r.next r.hisLatest := by
    rw [← next, ← hp, first.next_latest]
    rfl
  have new : p.writeHistory ((p.hisOldest + ws.length) % p.hisLen) =
      { r.behind with begin := commitTs, endTs := ⊤ } := by
    rw [slot, ← hp, ← behind]
    exact Function.update_self ..
  have room'' : ws.length < p.hisLen := by rw [← hp]; exact room'
  have window := second.window.push room''
  rw [new] at window
  have ids' : ids (ws ++ [{ r.behind with begin := commitTs, endTs := ⊤ }]) =
      ids vs ++ [(commitTs, r.behind.row)] := by
    rw [← kept]
    simp [ids]
  rw [result]
  refine ⟨rfl, _, ⟨⟨window, ?_, second.two, ?_, ?_, second.distinct, second.allocated, ?_⟩, nofun,
    ?_, ?_, ?_, nofun⟩, ids'⟩
  · rw [List.length_append]
    exact Nat.succ_pos _
  · change r.next r.hisLatest = (p.hisOldest + _) % p.hisLen
    rw [List.length_append, ← slot]
    rfl
  · intro e he
    rcases List.mem_append.mp he with he | he
    · exact second.rows e he
    · rw [List.mem_singleton.mp he]
      exact h.pending pre
  · intro i hi ne
    by_cases was : i = r.hisLatest
    · have : p.writeHistory r.hisLatest = q.writeHistory r.hisLatest := by
        rw [← hp]
        exact Function.update_of_ne off.symm ..
      have cleared : q.writeHistory r.hisLatest = { r.latest with endTxn := false, endTs := WithTop.some commitTs } := by
        rw [← hq]
        exact Function.update_self ..
      change (p.writeHistory i).endTxn = false
      rw [was, this, cleared]
    · exact second.closed i hi (by rw [← hp, ← hq]; exact was)
  · refine List.isChain_append.mpr ⟨chain, .singleton _, fun x hx y hy => ?_⟩
    rw [last] at hx
    obtain rfl := Option.some.inj hx
    rw [List.head?_cons] at hy
    rw [← Option.some.inj hy]
    exact ⟨rfl, rfl⟩
  · intro e he
    rw [List.getLast?_concat] at he
    rw [← Option.some.inj he]
    exact ⟨closed, fun _ => rfl⟩
  · -- it is the youngest version
    have sorted : (ids vs ++ [(commitTs, r.behind.row)]).Pairwise (fun x y => x.1 < y.1) := by
      refine List.pairwise_append.mpr ⟨List.pairwise_map.mpr h.sorted, List.pairwise_singleton .., ?_⟩
      intro x hx y hy
      obtain ⟨e, he, rfl⟩ := List.mem_map.mp hx
      rw [List.mem_singleton.mp hy]
      exact newer e he
    rw [← ids', ids, List.pairwise_map] at sorted
    exact sorted

end Versions

end RowHekaton

end DBx1000.Hekaton
