import Mathlib.Algebra.Order.Ring.WithTop
import DBx1000.Mvcc.Ordering

/-!
# The version that a read gets

The loop of an `R_REQ` that is not beyond the latest version goes through the history and notes
an entry whenever its timestamp is above the one that was noted. What it notes has 32 bits.

## Main result

`readReq_newest`: in every state of a row, a read that is served gets the newest version below
its timestamp if and only if no entry behind the newest one is above its low 32 bits.

## Proof strategy

The newest entry is always noted when the loop comes to it, since the low bits of the others are
below it. What the loop returns is then decided by the entries behind it.
-/

namespace DBx1000.Mvcc

open Scan Transition

namespace RowMvcc

variable {V τ : Type*}

/-- A version that a read with the timestamp may see. -/
def Visible (ts : Nat) (e : WriteHisEntry) : Prop := e.valid = true ∧ e.ts < ts

instance (ts : Nat) (e : WriteHisEntry) : Decidable (Visible ts e) :=
  inferInstanceAs (Decidable (_ ∧ _))

/-- The row is the version with the greatest timestamp below `ts`. The base version, which is not
above `ts`, is there for a read that finds no other one. -/
def Newest (r : RowMvcc V τ) (ts : Nat) (row : Option Nat) : Prop :=
  ∃ v, r.Current v row ∧ (v < ts ∨ v = r.oldestWts) ∧ ∀ w b, r.Current w b → w < ts → w ≤ v

/-- The read is beyond the latest version, or no visible entry behind the newest one has a
timestamp above its low 32 bits. -/
def Findable (r : RowMvcc V τ) (ts : Nat) : Prop :=
  r.latestWts < ts ∨ ∀ i j, i < j → Visible ts (r.entry i) → Visible ts (r.entry j) →
    (∀ k, Visible ts (r.entry k) → (r.entry k).ts ≤ (r.entry i).ts) →
      (r.entry j).ts ≤ (r.entry i).ts % 2 ^ 32

variable {r : RowMvcc V τ} {ts : Nat} {es : List WriteHisEntry} {i theTs : Nat} {theI : Option Nat}

/-! ### The loop -/

theorem search_cons {e : WriteHisEntry} : search ts (e :: es) i theTs theI =
    if Visible ts e ∧ theTs < e.ts then search ts es (i + 1) (e.ts % 2 ^ 32) (some i)
    else search ts es (i + 1) theTs theI := by
  rw [search]
  by_cases noted : Visible ts e ∧ theTs < e.ts
  · rw [if_pos noted, if_pos ⟨noted.1.1, noted.1.2, noted.2⟩]
  · rw [if_neg noted, if_neg fun h => noted ⟨⟨h.1, h.2.1⟩, h.2.2⟩]

/-- Either nothing is above what had been noted, or the loop ends with a visible entry. -/
theorem search_cases (ts : Nat) (es : List WriteHisEntry) (i theTs : Nat) (theI : Option Nat) :
    (search ts es i theTs theI = theI ∧ ∀ e ∈ es, Visible ts e → e.ts ≤ theTs) ∨
      (∃ e ∈ es, Visible ts e ∧ theTs < e.ts) ∧
        ∃ n e, es[n]? = some e ∧ Visible ts e ∧ search ts es i theTs theI = some (i + n) := by
  induction es generalizing i theTs theI with
  | nil => exact .inl ⟨rfl, nofun⟩
  | cons e es ih =>
    rw [search_cons]
    split
    · next noted =>
      right
      refine ⟨⟨e, List.mem_cons_self, noted⟩, ?_⟩
      rcases ih (i + 1) (e.ts % 2 ^ 32) (some i) with ⟨same, -⟩ | ⟨-, n, e', at_, visible, result⟩
      · exact ⟨0, e, rfl, noted.1, same⟩
      · exact ⟨n + 1, e', at_, visible, by rw [result, Nat.add_assoc, Nat.add_comm 1 n]⟩
    · next passed =>
      rcases ih (i + 1) theTs theI with ⟨same, least⟩ | ⟨⟨e', he', more⟩, n, e'', at_, visible, result⟩
      · refine .inl ⟨same, fun e' he' visible => ?_⟩
        rcases List.mem_cons.mp he' with rfl | he'
        · exact Nat.not_lt.mp fun lt => passed ⟨visible, lt⟩
        · exact least e' he' visible
      · right
        refine ⟨⟨e', List.mem_cons_of_mem e he', more⟩, n + 1, e'', at_, visible, ?_⟩
        rw [result, Nat.add_assoc, Nat.add_comm 1 n]

/-- The loop ends with the newest entry if and only if nothing behind it is above its low bits. -/
theorem search_newest (theI : Option Nat) {n : Nat} {e : WriteHisEntry} (at_ : es[n]? = some e) (visible : Visible ts e)
    (newest : ∀ m e', es[m]? = some e' → Visible ts e' → m ≠ n → e'.ts < e.ts)
    (above : theTs < e.ts) : search ts es i theTs theI = some (i + n) ↔
      ∀ m e', n < m → es[m]? = some e' → Visible ts e' → e'.ts ≤ e.ts % 2 ^ 32 := by
  induction es generalizing i theTs theI n with
  | nil => cases at_
  | cons h es ih =>
    cases n with
    | zero =>
      obtain rfl : h = e := Option.some.inj at_
      rw [search_cons, if_pos ⟨visible, above⟩]
      rcases search_cases ts es (i + 1) (h.ts % 2 ^ 32) (some i) with
        ⟨same, least⟩ | ⟨⟨e', he', more⟩, n, -, -, -, result⟩
      · rw [same]
        refine ⟨fun _ m e' lt at_' visible' => ?_, fun _ => rfl⟩
        obtain ⟨m, rfl⟩ := Nat.exists_eq_succ_of_ne_zero (Nat.ne_of_gt lt)
        exact least e' (List.mem_of_getElem? at_') visible'
      · rw [result]
        constructor
        · intro same
          have := Option.some.inj same
          omega
        · intro none
          obtain ⟨m, at_'⟩ := List.getElem?_of_mem he'
          exact absurd (none (m + 1) e' (Nat.succ_pos m) at_' more.1) (Nat.not_le.mpr more.2)
    | succ n =>
      have tail (m : Nat) (e' : WriteHisEntry) (at_' : es[m]? = some e') (visible' : Visible ts e')
          (ne : m ≠ n) : e'.ts < e.ts := newest (m + 1) e' at_' visible' (by omega)
      have behind : (∀ m e', n < m → es[m]? = some e' → Visible ts e' → e'.ts ≤ e.ts % 2 ^ 32) ↔
          ∀ m e', n + 1 < m → (h :: es)[m]? = some e' → Visible ts e' → e'.ts ≤ e.ts % 2 ^ 32 := by
        constructor
        · intro least m e' lt at_' visible'
          obtain ⟨m, rfl⟩ := Nat.exists_eq_succ_of_ne_zero (show m ≠ 0 by omega)
          exact least m e' (by omega) at_' visible'
        · intro least m e' lt at_' visible'
          exact least (m + 1) e' (by omega) at_' visible'
      have index : i + (n + 1) = i + 1 + n := by omega
      rw [search_cons, ← behind, index]
      split
      · next noted =>
        -- the low bits of an older entry are below the newest one
        refine ih _ at_ tail (Nat.lt_of_le_of_lt (Nat.mod_le _ _) ?_)
        exact newest 0 h rfl noted.1 (Nat.zero_ne_add_one n)
      · exact ih _ at_ tail above

/-! ### The read -/

/-- A version that is behind a row is the only one there. -/
theorem History.wts_unique (h : History r) {v w : Nat} {b : Option Nat} (hv : r.Current v b)
    (hw : r.Current w b) : v = w := by
  rcases hv with ⟨rfl, rfl⟩ | ⟨i, hi, rfl, rfl⟩
  · rcases hw with ⟨rfl, -⟩ | ⟨j, hj, -, row⟩
    · rfl
    · have := h.distinct (some j) none row (h.rows j hj)
      cases this
  · rcases hw with ⟨-, row⟩ | ⟨j, hj, rfl, row⟩
    · have := h.distinct (some i) none row (h.rows i hi)
      cases this
    · have := Option.some.inj (h.distinct (some i) (some j) row.symm (h.rows i hi))
      rw [this]

/-- The newest visible entry, if there is one. -/
theorem exists_newest (r : RowMvcc V τ) (h : History r) (ts : Nat) :
    (∀ i, ¬ Visible ts (r.entry i)) ∨ ∃ n, n < r.hisLen ∧ Visible ts (r.entry n) ∧
      ∀ k, Visible ts (r.entry k) → (r.entry k).ts ≤ (r.entry n).ts := by
  rcases scanMax_cases (Visible ts) (·.ts) r.writeHistory 0 with
    ⟨-, least⟩ | ⟨n, e, at_, visible, -, -, greatest⟩
  · refine .inl fun i visible => ?_
    have := least _ (entry_mem (lt_of_valid visible.1)) visible
    have := (h.range i visible.1).1
    omega
  · obtain ⟨lt, same⟩ := entry_of_getElem? at_
    subst same
    exact .inr ⟨n, lt, visible, fun k hk => greatest _ (entry_mem (lt_of_valid hk.1)) hk⟩

/-- The latest version is the newest one for reads beyond it. -/
theorem History.newest_latest (h : History r) (lt : r.latestWts < ts) : r.Newest ts r.latestRow := by
  refine ⟨r.latestWts, h.latest, .inl lt, fun w b current _ => ?_⟩
  rcases current with ⟨rfl, -⟩ | ⟨i, valid, rfl, -⟩
  · exact h.oldest_le
  · exact (h.range i valid).2

/-- The row of an entry that is found is the newest version if and only if the entry is. -/
theorem History.newest_entry (h : History r) {n j : Nat} (visible : Visible ts (r.entry n))
    (newest : ∀ k, Visible ts (r.entry k) → (r.entry k).ts ≤ (r.entry n).ts)
    (found : Visible ts (r.entry j)) : r.Newest ts (r.entry j).row ↔ j = n := by
  constructor
  · rintro ⟨v, current, -, greatest⟩
    have stamp : v = (r.entry j).ts := h.wts_unique current (.inr ⟨j, found.1, rfl, rfl⟩)
    have ge := greatest _ _ (.inr ⟨n, visible.1, rfl, rfl⟩) visible.2
    rw [stamp] at ge
    exact h.stamps j n found.1 visible.1 (Nat.le_antisymm (newest j found) ge)
  · rintro rfl
    refine ⟨_, .inr ⟨j, found.1, rfl, rfl⟩, .inl found.2, fun w b current lt => ?_⟩
    rcases current with ⟨rfl, -⟩ | ⟨k, valid, rfl, -⟩
    · exact Nat.le_of_lt (h.range j found.1).1
    · exact newest k ⟨valid, lt⟩

/-- What the loop finds among the versions of a row. -/
theorem History.newest_search (h : History r) (le : ts ≤ r.latestWts) :
    r.Newest ts (match search ts r.writeHistory 0 0 none with
      | none => r.row
      | some i => (r.entry i).row) ↔ r.Findable ts := by
  rcases exists_newest r h ts with none | ⟨n, lt, visible, newest⟩
  · have result : search ts r.writeHistory 0 0 Option.none = Option.none := by
      rcases search_cases ts r.writeHistory 0 0 Option.none with ⟨same, -⟩ | ⟨⟨e, he, visible, -⟩, -⟩
      · exact same
      · obtain ⟨i, rfl⟩ := exists_entry he
        exact absurd visible (none i)
    rw [result]
    refine ⟨fun _ => .inr fun i _ _ visible => absurd visible (none i), fun _ => ?_⟩
    refine ⟨r.oldestWts, .inl ⟨rfl, rfl⟩, .inr rfl, fun w b current below => ?_⟩
    rcases current with ⟨rfl, -⟩ | ⟨i, valid, rfl, -⟩
    · exact Nat.le_refl _
    · exact absurd ⟨valid, below⟩ (none i)
  · have strict (m : Nat) (e : WriteHisEntry) (at_ : r.writeHistory[m]? = some e)
        (visible' : Visible ts e) (ne : m ≠ n) : e.ts < (r.entry n).ts := by
      obtain ⟨-, rfl⟩ := entry_of_getElem? at_
      refine Nat.lt_of_le_of_ne (newest m visible') fun same => ne ?_
      exact h.stamps m n visible'.1 visible.1 same
    have positive : 0 < (r.entry n).ts := Nat.zero_lt_of_lt (h.range n visible.1).1
    have found := search_newest none (i := 0) (getElem?_entry lt) visible strict positive
    have findable : r.Findable ts ↔ ∀ m e, n < m → r.writeHistory[m]? = some e → Visible ts e →
        e.ts ≤ (r.entry n).ts % 2 ^ 32 := by
      constructor
      · rintro (beyond | least) m e lt' at_ visible'
        · exact absurd beyond (Nat.not_lt.mpr le)
        · obtain ⟨-, rfl⟩ := entry_of_getElem? at_
          exact least n m lt' visible visible' newest
      · intro least
        refine .inr fun i j lt' visible_i visible_j newest_i => ?_
        -- the newest entry is the one that was found
        have same : i = n := h.stamps i n visible_i.1 visible.1
          (Nat.le_antisymm (newest i visible_i) (newest_i n visible))
        subst same
        exact least j _ lt' (getElem?_entry (lt_of_valid visible_j.1)) visible_j
    rw [Nat.zero_add] at found
    rw [findable, ← found]
    rcases search_cases ts r.writeHistory 0 0 none with ⟨-, least⟩ | ⟨-, j, e, at_, visible', result⟩
    · exact absurd (least _ (entry_mem lt) visible) (Nat.not_le.mpr positive)
    · obtain ⟨-, rfl⟩ := entry_of_getElem? at_
      rw [result, Nat.zero_add]
      dsimp only
      rw [h.newest_entry visible newest visible', Option.some.injEq]

/-- A read that is served, in a row whose history is in order. -/
theorem History.served_newest (h : History r) {txn : τ} {r' : RowMvcc V τ} {reply : Reply τ}
    (done : r.readReq txn ts = some (r', reply)) (served : reply.rc = .RCOK) :
    r.Newest ts reply.curRow ↔ r.Findable ts := by
  unfold readReq at done
  split at done
  · cases done
    cases served
  · split at done
    · next beyond =>
      have newest := h.newest_latest beyond
      split at done
      · obtain ⟨_, -, same⟩ := Option.map_eq_some_iff.mp done
        cases same
        cases served
      · cases done
        exact ⟨fun _ => .inl beyond, fun _ => newest⟩
    · next within =>
      have found := h.newest_search (Nat.not_lt.mp within)
      split at done
      · next none =>
        rw [none] at found
        cases done
        exact found
      · next i some =>
        rw [some] at found
        cases done
        exact found

end RowMvcc

open RowMvcc

variable {V τ : Type*} [DecidableEq τ] {debug : Bool} {gThreadCnt hisLen reqLen : Nat}
variable {memory : Nat → V} {s : RowState V τ}

/-- **A read gets the newest version** below its timestamp if and only if the low 32 bits of that
version do not hide it from an older one. -/
theorem readReq_newest (his : 0 < hisLen) (req : 0 < reqLen)
    (reached : (rowMachine debug gThreadCnt hisLen reqLen memory).Reachable Free s)
    {minTs : WithTop Nat} {txn : τ} {ts : Nat} {row : Option Nat} {r : RowMvcc V τ} {reply : Reply τ}
    (done : s.row.access debug gThreadCnt minTs txn ts .R_REQ row = some (r, reply))
    (served : reply.rc = .RCOK) : s.row.Newest ts reply.curRow ↔ s.row.Findable ts := by
  have inv : RowInv s := reached.invariant (I := RowInv)
    (fun _ start => by
      rw [start]
      exact RowInv.init his req)
    fun _ _ _ inv _ next => (rowStep_spec inv next).1
  unfold access at done
  split at done
  · cases done
  · exact inv.history.served_newest done served

/-- Three transactions write, the first two of them at `a` and `b`, the last one at `c`. -/
def threeWrites (a b c : Nat) : List (AccessCall Nat) :=
  [⟨0, a, .P_REQ, none, WithTop.some 0⟩, ⟨0, a, .W_REQ, some 1, WithTop.some 0⟩,
    ⟨1, b, .P_REQ, none, WithTop.some 0⟩, ⟨1, b, .W_REQ, some 2, WithTop.some 0⟩,
    ⟨2, c, .P_REQ, none, WithTop.some 0⟩, ⟨2, c, .W_REQ, some 3, WithTop.some 0⟩]

/-- Small timestamps: the read between the last two writes gets the second one. -/
theorem readReq_newest_small :
    ∃ s, (rowMachine (V := Nat) (τ := Nat) true 4 4 4 fun _ => 0).Reachable Free s ∧
      ∃ r reply, s.row.access true 4 (WithTop.some 0) 3 25 .R_REQ none = some (r, reply) ∧
        reply.rc = .RCOK ∧ reply.curRow = some 2 ∧ (s.row.Newest 25 reply.curRow ↔ s.row.Findable 25) := by
  obtain ⟨s, run, view⟩ := (rowMachine (V := Nat) (τ := Nat) true 4 4 4 fun _ => 0).exists_along Free
    ⟨.init Nat 4 4 fun _ => 0, [], none, [], [], false⟩ (threeWrites 10 20 30)
    (fun s => (s.row.access true 4 (WithTop.some 0) 3 25 .R_REQ none).map fun a => (a.2.rc, a.2.curRow))
    (some (.RCOK, some 2)) (by decide)
  have reached : (rowMachine (V := Nat) (τ := Nat) true 4 4 4 fun _ => 0).Reachable Free s :=
    ⟨_, _, rfl, run⟩
  obtain ⟨⟨r, reply⟩, done, result⟩ := Option.map_eq_some_iff.mp view
  obtain ⟨served, row⟩ := Prod.mk.inj result
  exact ⟨s, reached, r, reply, done, served, row,
    readReq_newest (by decide) (by decide) reached done served⟩

deriving instance DecidableEq for WriteHisEntry

/-- The low 32 bits of the second write are one, and a read between the last two writes gets the
first write. -/
theorem readReq_truncated :
    ∃ s, (rowMachine (V := Nat) (τ := Nat) true 4 4 4 fun _ => 0).Reachable Free s ∧
      ∃ r reply, s.row.access true 4 (WithTop.some 0) 3 (2 ^ 32 + 2) .R_REQ none = some (r, reply) ∧
        reply.rc = .RCOK ∧ reply.curRow = some 1 ∧ ¬ s.row.Newest (2 ^ 32 + 2) reply.curRow := by
  obtain ⟨s, run, view⟩ := (rowMachine (V := Nat) (τ := Nat) true 4 4 4 fun _ => 0).exists_along Free
    ⟨.init Nat 4 4 fun _ => 0, [], none, [], [], false⟩ (threeWrites 10 (2 ^ 32 + 1) (2 ^ 32 + 3))
    (fun s => ((s.row.access true 4 (WithTop.some 0) 3 (2 ^ 32 + 2) .R_REQ none).map
      fun a => (a.2.rc, a.2.curRow), s.row.row, s.row.writeHistory))
    (some (.RCOK, some 1), some 0, [.empty, ⟨true, true, 2 ^ 32 + 3, some 3⟩,
      ⟨true, true, 2 ^ 32 + 1, some 2⟩, ⟨true, true, 10, some 1⟩]) (by decide)
  obtain ⟨view, rest⟩ := Prod.mk.inj view
  obtain ⟨base, history⟩ := Prod.mk.inj rest
  obtain ⟨⟨r, reply⟩, done, result⟩ := Option.map_eq_some_iff.mp view
  obtain ⟨served, row⟩ := Prod.mk.inj result
  refine ⟨s, ⟨_, _, rfl, run⟩, r, reply, done, served, row, ?_⟩
  rintro ⟨v, current, -, greatest⟩
  have second : s.row.entry 2 = ⟨true, true, 2 ^ 32 + 1, some 2⟩ := by
    rw [RowMvcc.entry, history]
    rfl
  have ge := greatest (2 ^ 32 + 1) (some 2) (.inr ⟨2, by rw [second], by rw [second], by rw [second]⟩)
    (by decide)
  -- the row that was returned is the first write
  have first : v = 10 := by
    rw [row] at current
    rcases current with ⟨-, other⟩ | ⟨i, valid, stamp, at_⟩
    · rw [base] at other
      cases other
    · have mem := entry_mem (lt_of_valid valid)
      rw [history] at mem
      simp only [List.mem_cons, List.not_mem_nil, or_false] at mem
      rcases mem with e | e | e | e <;> rw [e] at stamp at_
      · cases at_
      · cases at_
      · cases at_
      · exact stamp.symm
  rw [first] at ge
  exact absurd ge (by decide)

end DBx1000.Mvcc
