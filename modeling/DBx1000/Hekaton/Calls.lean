import DBx1000.Hekaton.Versions
import DBx1000.Library.Transition

/-!
# The history of a row over calls

All sequences of calls of `access`, `prepare_read` and `post_process` on one row under
`SERIALIZABLE`, with the assertions of these methods. `post_process` is called by the
transaction of the pre-write, whose commit timestamp was drawn behind its own one. `holder` and
`begins` are ghosts: the id and the timestamp of that transaction, and the timestamps of all
versions. `failed` says that an assertion has failed, or that the loop of the garbage
collection does not end.

## Main result

`hekaton_ring`: no assertion fails, the entries from the oldest to the latest one are a history
without gaps, and a read returns the version that was current at its timestamp.

## Proof strategy

The entries between the two indices are the list of `Versions`, which the steps of a writer
keep. What is left are the assertions, and the search of an `R_REQ`: it goes back from the latest
version, and every version that it passes begins behind the timestamp.
-/

namespace DBx1000.Hekaton

open Transition

namespace RowHekaton

/-- The entries from `_his_oldest` to `_his_latest`. -/
def live (r : RowHekaton) : List WriteHisEntry :=
  Ring.between r.hisLen r.writeHistory r.hisOldest r.hisLatest

/-- The assertion in the loop of the garbage collection, and that the loop ends. -/
def collects (minTs : WithTop Nat) : Nat → RowHekaton → Bool
  | 0, _ => false
  | fuel + 1, r =>
    if r.oldest.endTs < minTs then
      r.hisOldest ≠ r.hisLatest ∧ collects minTs fuel { r with hisOldest := r.next r.hisOldest }
    else true

/-- `access` with its assertions: the row, the return code and `cur_row`. -/
def access (gThreadCnt : Nat) (r : RowHekaton) (txnId ts : Nat) (type : TsType)
    (minTs : WithTop Nat) : Option (RowHekaton × RC × Option Nat) :=
  if ¬ (r.latest.endTs = ⊤ ∨ r.latest.endTxn = true) then none
  else
    match type with
    | .R_REQ =>
      match r.read ts with
      | .abort => some (r, .Abort, none)
      | .fails => none
      | .ok e => some (r, .RCOK, e.row)
    | .P_REQ =>
      if (r.existsPrewrite = false ∧ ¬ ts < r.latest.begin) ∧
          (r.full ∧ minTs > r.oldest.endTs) ∧ ¬ r.collects minTs r.hisLen then none
      else
        match r.prewrite gThreadCnt minTs txnId ts with
        | none => some (r, .Abort, none)
        | some (_, none) => none
        | some (r, some row) => some (r, .RCOK, some row)
    | _ => none

/-- `post_process` with its assertions. -/
def process (r : RowHekaton) (txnId commitTs : Nat) (rc : RC) : Option RowHekaton :=
  if r.behind.beginTxn = true ∧ r.behind.begin = txnId then
    if rc = .RCOK ∧ (¬ r.latest.begin < commitTs ∨
        (r.postProcess commitTs rc).hisLatest = (r.postProcess commitTs rc).hisOldest) then none
    else some (r.postProcess commitTs rc)
  else none

end RowHekaton

structure HistoryState where
  row : RowHekaton
  holder : Option (Nat × Nat)
  begins : List Nat
  failed : Bool

inductive HistoryCall
  | access (txnId ts : Nat) (type : TsType) (minTs : WithTop Nat)
  /-- It has no assertion and changes nothing. -/
  | prepareRead (ts : Nat) (row : Option Nat) (commitTs : Nat)
  | postProcess (txnId commitTs : Nat) (rc : RC)

namespace HistoryState

/-- Who may call. -/
def Permits (s : HistoryState) : HistoryCall → Prop
  | .access _ ts type _ => (type = .R_REQ ∨ type = .P_REQ) ∧ ts ∉ s.begins
  | .prepareRead _ _ _ => True
  | .postProcess txnId commitTs _ => ∃ h ∈ s.holder, h.1 = txnId ∧ h.2 < commitTs

instance (s : HistoryState) (l : HistoryCall) : Decidable (s.Permits l) := by
  cases l <;> unfold Permits <;> infer_instance

def step (gThreadCnt : Nat) (s : HistoryState) (l : HistoryCall) : Option HistoryState :=
  if s.failed ∨ ¬ s.Permits l then none
  else
    match l with
    | .access txnId ts type minTs =>
      match s.row.access gThreadCnt txnId ts type minTs with
      | none => some { s with failed := true }
      | some (r, rc, _) =>
        some { s with
          row := r
          holder := if type = .P_REQ ∧ rc = .RCOK then some (txnId, ts) else s.holder }
    | .prepareRead _ _ _ => some s
    | .postProcess txnId commitTs rc =>
      match s.row.process txnId commitTs rc with
      | none => some { s with failed := true }
      | some r =>
        some { s with
          row := r
          holder := none
          begins := if rc = .RCOK then commitTs :: s.begins else s.begins }

end HistoryState

/-- A row as `init` leaves it. -/
def historyMachine (gThreadCnt : Nat) : Machine HistoryState HistoryCall where
  init s := s = ⟨.init, none, [0], false⟩
  step := HistoryState.step gThreadCnt

/-- The history is contiguous, and the pre-write is behind it. -/
structure Contiguous (s : HistoryState) : Prop where
  increasing : s.row.live.Pairwise (·.begin < ·.begin)
  adjacent : s.row.live.IsChain fun e f => e.endTxn = false ∧ e.endTs = WithTop.some f.begin
  latest : s.row.live.getLast? = some s.row.latest
  open_ : s.row.latest.endTs = ⊤ ↔ s.holder = none
  prewrite : ∀ txnId ts, s.holder = some (txnId, ts) →
    s.row.behind.beginTxn = true ∧ s.row.behind.begin = txnId ∧
      ∀ k < s.row.live.length, (s.row.hisOldest + k) % s.row.hisLen ≠ s.row.next s.row.hisLatest

namespace RowHekaton

variable {r r' : RowHekaton} {vs : List WriteHisEntry} {ts gThreadCnt : Nat} {minTs : WithTop Nat}

theorem Layout.live_eq (h : Layout r vs) : r.live = vs := by
  rw [live, h.latest]
  exact h.window.between_eq h.nonempty

/-! ### The garbage collection -/

/-- The loop comes to an end before the latest version, which ends never. -/
theorem Layout.collects (minTs : WithTop Nat) {fuel : Nat} (h : Layout r vs)
    (open_ : r.latest.endTs = ⊤) (enough : vs.length ≤ fuel) : r.collects minTs fuel = true := by
  induction fuel generalizing r vs with
  | zero => exact absurd h.nonempty (Nat.not_lt.mpr enough)
  | succ fuel ih =>
    rw [RowHekaton.collects]
    split
    · next lt =>
      -- the latest version has no end, so it is not collected
      have ne : r.hisOldest ≠ r.hisLatest := by
        intro same
        rw [oldest, same] at lt
        rw [show r.writeHistory r.hisLatest = r.latest from rfl, open_] at lt
        exact absurd lt not_top_lt
      have more : 1 < vs.length := by
        by_contra single
        have one : vs.length - 1 = 0 := by
          have := h.nonempty
          omega
        have := h.latest
        rw [one, Ring.slot_zero h.window.first_lt] at this
        exact ne this.symm
      rw [decide_eq_true_eq]
      exact ⟨ne, ih (h.forget more) open_ (by rw [List.length_drop]; omega)⟩
    · rfl

/-! ### The search -/

namespace Versions

/-- A version ends where the next one begins. -/
theorem adjacent (h : Versions r vs) {i : Nat} (more : i + 1 < vs.length) :
    (r.writeHistory ((r.hisOldest + i) % r.hisLen)).endTs =
      WithTop.some (r.writeHistory ((r.hisOldest + (i + 1)) % r.hisLen)).begin := by
  have link := (h.chain.getElem i more).2
  have here := h.window.get i (by omega)
  have there := h.window.get (i + 1) more
  rw [List.getElem?_eq_getElem (by omega)] at here there
  rw [Option.some.inj here, Option.some.inj there] at link
  exact link

/-- The search from a version that begins behind the timestamp. -/
theorem search_ok (h : Versions r vs) (fuel : Nat) (new : ∀ e ∈ vs, e.begin ≠ ts)
    (first : r.oldest.begin < ts) {i : Nat} (more : i + 1 < vs.length) (enough : i < fuel)
    (passed : ts < (r.writeHistory ((r.hisOldest + (i + 1)) % r.hisLen)).begin) :
    ∃ e ∈ vs, r.search ts fuel ((r.hisOldest + (i + 1)) % r.hisLen) = .ok e ∧ e.begin < ts ∧
      WithTop.some ts < e.endTs := by
  induction fuel generalizing i with
  | zero => exact absurd enough (Nat.not_lt_zero _)
  | succ fuel ih =>
    have pos : 0 < r.hisLen := Nat.lt_of_le_of_lt (Nat.zero_le _) h.window.first_lt
    have back : r.prev ((r.hisOldest + (i + 1)) % r.hisLen) = (r.hisOldest + i) % r.hisLen := by
      rw [← Ring.succ_slot]
      exact prev_next (Nat.mod_lt _ pos)
    have mem := h.window.mem (i := i) (by omega)
    simp only [RowHekaton.search, back]
    split
    · next begun =>
      -- the version ends where the one behind begins
      have ends : WithTop.some ts < (r.writeHistory ((r.hisOldest + i) % r.hisLen)).endTs := by
        rw [h.adjacent more]
        exact WithTop.coe_lt_coe.mpr passed
      rw [if_pos ends]
      exact ⟨_, mem, rfl, begun, ends⟩
    · next later =>
      have later : ts < (r.writeHistory ((r.hisOldest + i) % r.hisLen)).begin :=
        Nat.lt_of_le_of_ne (Nat.not_lt.mp later) fun same => new _ mem same.symm
      cases i with
      | zero =>
        rw [Ring.slot_zero h.window.first_lt] at later
        exact absurd first (Nat.not_lt.mpr (Nat.le_of_lt later))
      | succ i =>
        -- the search has not come to the oldest version
        rw [if_neg fun oldest => ?_]
        · exact ih (by omega) (by omega) later
        · have fits := h.window.fits
          have := Ring.slot_inj (by omega) pos (oldest.trans (Ring.slot_zero h.window.first_lt).symm)
          omega

/-- An `R_REQ` that is not below the oldest version returns the one that was current. -/
theorem read_ok (h : Versions r vs) (new : ∀ e ∈ vs, e.begin ≠ ts) (ge : r.oldest.begin ≤ ts) :
    ∃ e ∈ vs, r.read ts = .ok e ∧ e.begin < ts ∧ (e = r.latest ∨ WithTop.some ts < e.endTs) := by
  have oldest_mem : r.oldest ∈ vs := by
    have := h.window.mem h.nonempty
    rw [Ring.slot_zero h.window.first_lt] at this
    exact this
  have first : r.oldest.begin < ts := Nat.lt_of_le_of_ne ge (new _ oldest_mem)
  unfold RowHekaton.read
  rw [if_neg (Nat.not_lt.mpr ge)]
  split
  · next young => exact ⟨r.latest, h.latest_mem, rfl, young, .inl rfl⟩
  · next old =>
    have old : ts < r.latest.begin :=
      Nat.lt_of_le_of_ne (Nat.not_lt.mp old) fun same => new _ h.latest_mem same.symm
    -- the oldest version begins before `ts` and the latest one after it
    have more : 1 < vs.length := by
      by_contra single
      have one : vs.length - 1 = 0 := by
        have := h.nonempty
        omega
      have := h.latest
      rw [one, Ring.slot_zero h.window.first_lt] at this
      have same : r.oldest = r.latest := by rw [oldest, ← this]; rfl
      rw [same] at first
      exact Nat.lt_asymm first old
    have fits := h.window.fits
    have slot : r.hisLatest = (r.hisOldest + (vs.length - 2 + 1)) % r.hisLen := by
      rw [h.latest]
      congr 2
      omega
    rw [RowHekaton.latest, slot] at old
    rw [slot]
    obtain ⟨e, he, found, begun, ends⟩ := h.search_ok r.hisLen new first (by omega) (by omega) old
    exact ⟨e, he, found, begun, .inr ends⟩

end Versions

end RowHekaton

/-! ### The invariant -/

open RowHekaton

structure HistoryInv (s : HistoryState) : Prop where
  versions : ∃ vs, Versions s.row vs ∧ ∀ e ∈ vs, e.begin ∈ s.begins
  free : s.holder = none ↔ s.row.existsPrewrite = false
  held : ∀ txnId ts, s.holder = some (txnId, ts) → s.row.behind.beginTxn = true ∧
    s.row.behind.begin = txnId ∧ s.row.latest.begin ≤ ts ∧ s.row.latest.endTs ≠ ⊤
  passes : s.failed = false

namespace RowHekaton.Versions

variable {r r' : RowHekaton} {vs ws : List WriteHisEntry} {ts gThreadCnt txnId : Nat}
variable {minTs : WithTop Nat}

theorem begin_le (h : Versions r vs) {e : WriteHisEntry} (he : e ∈ vs) : e.begin ≤ r.latest.begin := by
  have sorted := h.sorted
  rw [dropLast_append h.toLayout] at sorted he
  rcases List.mem_append.mp he with he | he
  · exact Nat.le_of_lt ((List.pairwise_append.mp sorted).2.2 e he r.latest (List.mem_singleton_self _))
  · rw [List.mem_singleton.mp he]

/-- The latest version is the last one of every suffix. -/
theorem latest_of_suffix (h : Layout r vs) (h' : Layout r' ws) (suffix : ids ws <:+ ids vs) :
    r'.latest.begin = r.latest.begin ∧ r'.latest.row = r.latest.row := by
  have last := congrArg (Option.map fun e : WriteHisEntry => (e.begin, e.row)) h.getLast
  have last' := congrArg (Option.map fun e : WriteHisEntry => (e.begin, e.row)) h'.getLast
  rw [← List.getLast?_map] at last last'
  obtain ⟨front, eq⟩ := suffix
  change (ids vs).getLast? = _ at last
  change (ids ws).getLast? = _ at last'
  rw [← eq, List.getLast?_append, last'] at last
  exact Prod.mk.inj (Option.some.inj last)

/-- The first assertion of `access`. -/
theorem asserts (h : Versions r vs) : r.latest.endTs = ⊤ ∨ r.latest.endTxn = true := by
  obtain ⟨txn, never⟩ := h.open_ _ h.getLast
  cases pre : r.existsPrewrite with
  | false => exact .inl (never pre)
  | true => exact .inr (txn.trans pre)

/-- An `R_REQ` that is not below the oldest version, in `access`. -/
theorem access_read (gThreadCnt txnId : Nat) (minTs : WithTop Nat) (h : Versions r vs)
    (new : ∀ e ∈ vs, e.begin ≠ ts) (ge : r.oldest.begin ≤ ts) :
    ∃ e ∈ vs, r.access gThreadCnt txnId ts .R_REQ minTs = some (r, .RCOK, e.row) ∧ e.begin < ts ∧
      (e = r.latest ∨ WithTop.some ts < e.endTs) := by
  obtain ⟨e, he, found, begun, ends⟩ := h.read_ok new ge
  refine ⟨e, he, ?_, begun, ends⟩
  unfold RowHekaton.access
  rw [if_neg (not_not.mpr h.asserts)]
  dsimp only
  rw [found]

/-- A `P_REQ` either aborts or reserves an entry. -/
theorem access_prewrite (gThreadCnt txnId ts : Nat) (minTs : WithTop Nat) (h : Versions r vs) :
    r.access gThreadCnt txnId ts .P_REQ minTs = some (r, .Abort, none) ∨
      ∃ r' row, r.access gThreadCnt txnId ts .P_REQ minTs = some (r', .RCOK, some row) ∧
        r.prewrite gThreadCnt minTs txnId ts = some (r', some row) ∧ ¬ ts < r.latest.begin := by
  unfold RowHekaton.access
  rw [if_neg (not_not.mpr h.asserts)]
  dsimp only
  rw [if_neg]
  · split
    · exact .inl rfl
    · next r' done =>
      obtain ⟨-, pre, ⟨-, -, row, -⟩, ws, versions, -⟩ := h.prewrite done
      -- an entry that is reserved has a row
      exact absurd row (versions.pending pre)
    · next r' row done =>
      refine .inr ⟨r', row, rfl, done, fun lt => ?_⟩
      unfold RowHekaton.prewrite at done
      rw [if_pos (.inr lt)] at done
      cases done
  · rintro ⟨⟨pre, -⟩, -, fails⟩
    exact fails (h.collects minTs ((h.open_ _ h.getLast).2 pre) h.window.fits)

end RowHekaton.Versions

namespace HistoryInv

variable {s s' : HistoryState} {gThreadCnt : Nat} {l : HistoryCall}

theorem init : HistoryInv ⟨.init, none, [0], false⟩ :=
  ⟨⟨_, versions_init, fun e he => by rw [List.mem_singleton.mp he]; exact List.mem_singleton_self 0⟩,
    ⟨fun _ => rfl, fun _ => rfl⟩, nofun, rfl⟩

theorem contiguous (inv : HistoryInv s) : Contiguous s := by
  obtain ⟨vs, h, -⟩ := inv.versions
  have live := h.live_eq
  refine ⟨?_, ?_, ?_, ?_, fun txnId ts holder => ?_⟩
  · rw [live]
    exact h.sorted
  · rw [live]
    exact h.chain
  · rw [live]
    exact h.getLast
  · rw [inv.free]
    constructor
    · intro never
      by_contra pre
      obtain ⟨⟨txnId, ts⟩, holder⟩ := Option.ne_none_iff_exists'.mp fun none => pre (inv.free.mp none)
      exact (inv.held txnId ts holder).2.2.2 never
    · exact (h.open_ _ h.getLast).2
  · obtain ⟨begun, id, -, -⟩ := inv.held txnId ts holder
    refine ⟨begun, id, fun k lt same => ?_⟩
    have pre : s.row.existsPrewrite = true := by
      by_contra no
      rw [inv.free.mpr (by simpa using no)] at holder
      cases holder
    -- the pre-write stands behind all versions
    have room := h.room pre
    rw [live] at lt
    rw [h.next_latest] at same
    exact Nat.ne_of_lt lt (Ring.slot_inj (Nat.lt_trans lt room) room same)

/-- A call of `access`. -/
theorem access (inv : HistoryInv s) {txnId ts : Nat} {type : TsType} {minTs : WithTop Nat}
    (request : type = .R_REQ ∨ type = .P_REQ) (new : ts ∉ s.begins) :
    ∃ r rc row, s.row.access gThreadCnt txnId ts type minTs = some (r, rc, row) ∧
      HistoryInv { s with
        row := r
        holder := if type = .P_REQ ∧ rc = .RCOK then some (txnId, ts) else s.holder } := by
  obtain ⟨vs, h, begins⟩ := inv.versions
  have other (e : WriteHisEntry) (he : e ∈ vs) : e.begin ≠ ts := fun same => new (same ▸ begins e he)
  rcases request with rfl | rfl
  · -- a read before the oldest version aborts
    rcases Nat.lt_or_ge ts s.row.oldest.begin with below | ge
    · refine ⟨s.row, .Abort, none, ?_, inv⟩
      unfold RowHekaton.access
      rw [if_neg (not_not.mpr h.asserts)]
      dsimp only
      rw [RowHekaton.read, if_pos below]
    · obtain ⟨e, -, done, -⟩ := h.access_read gThreadCnt txnId minTs other ge
      exact ⟨s.row, .RCOK, e.row, done, inv⟩
  · rcases h.access_prewrite gThreadCnt txnId ts minTs with
      aborts | ⟨r, row, done, reserved, late⟩
    · exact ⟨s.row, .Abort, none, aborts, inv⟩
    · obtain ⟨-, pre, ⟨begun, id, -, end_⟩, ws, after, suffix⟩ := h.prewrite reserved
      refine ⟨r, .RCOK, some row, done, ⟨ws, after, fun e he => ?_⟩, ?_, ?_, inv.passes⟩
      · have mem : (e.begin, e.row) ∈ Versions.ids vs :=
          suffix.subset (List.mem_map.mpr ⟨e, he, rfl⟩)
        obtain ⟨f, hf, eq⟩ := List.mem_map.mp mem
        rw [← (Prod.mk.inj eq).1]
        exact begins f hf
      · rw [if_pos ⟨rfl, rfl⟩]
        refine ⟨nofun, fun no => ?_⟩
        change r.existsPrewrite = false at no
        rw [pre] at no
        cases no
      · intro txnId' ts' holder
        rw [if_pos ⟨rfl, rfl⟩] at holder
        obtain ⟨rfl, rfl⟩ := Prod.mk.inj (Option.some.inj holder)
        refine ⟨begun, id, ?_, by rw [end_]; exact WithTop.coe_ne_top⟩
        rw [(Versions.latest_of_suffix h.toLayout after.toLayout suffix).1]
        exact Nat.not_lt.mp late

/-- A call of `post_process` by the transaction of the pre-write. -/
theorem process (inv : HistoryInv s) {txnId ts commitTs : Nat} (rc : RC)
    (holder : s.holder = some (txnId, ts)) (later : ts < commitTs) :
    ∃ r, s.row.process txnId commitTs rc = some r ∧
      HistoryInv { s with
        row := r
        holder := none
        begins := if rc = .RCOK then commitTs :: s.begins else s.begins } := by
  obtain ⟨vs, h, begins⟩ := inv.versions
  obtain ⟨begun, id, late, -⟩ := inv.held txnId ts holder
  have pre : s.row.existsPrewrite = true := by
    by_contra no
    rw [inv.free.mpr (by simpa using no)] at holder
    cases holder
  -- all versions begin before the pre-write, and it before its commit
  have newer (e : WriteHisEntry) (he : e ∈ vs) : e.begin < commitTs :=
    Nat.lt_of_le_of_lt (Nat.le_trans (h.begin_le he) late) later
  refine ⟨s.row.postProcess commitTs rc, ?_, ?_⟩
  · unfold RowHekaton.process
    rw [if_pos ⟨begun, id⟩, if_neg]
    rintro ⟨rfl, old | same⟩
    · exact old (newer _ h.latest_mem)
    · -- there are two versions at least
      obtain ⟨-, ws, after, ids⟩ := h.postProcess_commit pre newer
      have len := congrArg List.length ids
      rw [List.length_append, Versions.ids, Versions.ids, List.length_map, List.length_map,
        List.length_singleton] at len
      have pos := h.nonempty
      have fits := after.window.fits
      have slot := after.latest
      rw [same] at slot
      have := Ring.slot_inj (by omega : 0 < _) (by omega)
        ((Ring.slot_zero after.window.first_lt).trans slot)
      omega
  · by_cases commits : rc = .RCOK
    · subst commits
      obtain ⟨free, ws, after, ids⟩ := h.postProcess_commit pre newer
      refine ⟨⟨ws, after, fun e he => ?_⟩, ⟨fun _ => free, fun _ => rfl⟩, (fun _ _ h => by cases h), inv.passes⟩
      have mem : (e.begin, e.row) ∈ Versions.ids ws := List.mem_map.mpr ⟨e, he, rfl⟩
      rw [ids] at mem
      rcases List.mem_append.mp mem with mem | mem
      · obtain ⟨f, hf, eq⟩ := List.mem_map.mp mem
        rw [← (Prod.mk.inj eq).1]
        exact List.mem_cons_of_mem _ (begins f hf)
      · rw [(Prod.mk.inj (List.mem_singleton.mp mem)).1]
        exact List.mem_cons_self
    · have aborts : s.row.postProcess commitTs rc = s.row.postProcess commitTs .Abort := by
        unfold RowHekaton.postProcess
        rw [if_neg commits, if_neg (fun h => by cases h)]
      rw [aborts, if_neg commits]
      obtain ⟨free, ws, after, ids⟩ := h.postProcess_abort commitTs
      refine ⟨⟨ws, after, fun e he => ?_⟩, ⟨fun _ => free, fun _ => rfl⟩, (fun _ _ h => by cases h), inv.passes⟩
      have mem : (e.begin, e.row) ∈ Versions.ids ws := List.mem_map.mpr ⟨e, he, rfl⟩
      rw [ids] at mem
      obtain ⟨f, hf, eq⟩ := List.mem_map.mp mem
      rw [← (Prod.mk.inj eq).1]
      exact begins f hf

theorem step (inv : HistoryInv s) (next : s.step gThreadCnt l = some s') : HistoryInv s' := by
  unfold HistoryState.step at next
  split at next
  · cases next
  · next may =>
    push Not at may
    obtain ⟨-, permits⟩ := may
    cases l with
    | access txnId ts type minTs =>
      obtain ⟨r, rc, row, done, after⟩ := inv.access permits.1 permits.2
      dsimp only at next
      rw [done] at next
      rw [← Option.some.inj next]
      exact after
    | prepareRead ts row commitTs =>
      rw [← Option.some.inj next]
      exact inv
    | postProcess txnId commitTs rc =>
      obtain ⟨⟨id, ts⟩, holder, rfl, later⟩ := permits
      obtain ⟨r, done, after⟩ := inv.process rc holder later
      dsimp only at next
      rw [done] at next
      rw [← Option.some.inj next]
      exact after

end HistoryInv

/-- **The ring of versions stays a contiguous history.** -/
theorem hekaton_ring {gThreadCnt : Nat} {s : HistoryState}
    (reached : (historyMachine gThreadCnt).Reachable Free s) :
    s.failed = false ∧ Contiguous s ∧ (s.row.full → s.row.doubleHistory.live = s.row.live) ∧
      ∀ txnId ts minTs, s.Permits (.access txnId ts .R_REQ minTs) → s.row.oldest.begin ≤ ts →
        ∃ e ∈ s.row.live, s.row.access gThreadCnt txnId ts .R_REQ minTs = some (s.row, .RCOK, e.row) ∧
          e.begin < ts ∧ (e = s.row.latest ∨ WithTop.some ts < e.endTs) := by
  have inv : HistoryInv s := reached.invariant (I := HistoryInv)
    (fun _ start => by
      rw [start]
      exact HistoryInv.init)
    fun _ _ _ inv _ next => inv.step next
  obtain ⟨vs, h, begins⟩ := inv.versions
  refine ⟨inv.passes, inv.contiguous, fun full => ?_, fun txnId ts minTs permits ge => ?_⟩
  · rw [(h.double (h.full_iff.mp full)).live_eq, h.live_eq]
  · rw [h.live_eq]
    exact h.access_read gThreadCnt txnId minTs (fun e he same => permits.2 (same ▸ begins e he)) ge

/-- A transaction pre-writes and then commits or aborts. -/
def writes (txnId ts commitTs : Nat) (rc : RC) (minTs : WithTop Nat) : List HistoryCall :=
  [.access txnId ts .P_REQ minTs, .postProcess txnId commitTs rc]

/-- An abort and eight commits: the fourth one doubles the history, the last one collects the
first version, and the pre-write that is outstanding takes the entry of the next one. -/
theorem hekaton_ring_doubles :
    ∃ s, (historyMachine 8).Reachable Free s ∧ s.row.hisLen = 8 ∧
      s.row.live.map (·.begin) = [4, 6, 8, 10, 12, 14, 16] ∧ s.holder = some (9, 17) ∧ Contiguous s := by
  obtain ⟨s, run, view⟩ := (historyMachine 8).exists_along Free ⟨.init, none, [0], false⟩
    (writes 0 1 2 .Abort (0 : Nat) ++ writes 1 1 2 .RCOK (0 : Nat) ++ writes 2 3 4 .RCOK (0 : Nat) ++
      writes 3 5 6 .RCOK (0 : Nat) ++ writes 4 7 8 .RCOK (0 : Nat) ++ writes 5 9 10 .RCOK (0 : Nat) ++
      writes 6 11 12 .RCOK (0 : Nat) ++ writes 7 13 14 .RCOK (0 : Nat) ++ writes 8 15 16 .RCOK (3 : Nat) ++
      [.access 9 17 .P_REQ (3 : Nat)])
    (fun s => (s.row.hisLen, s.row.live.map (·.begin), s.holder))
    (8, [4, 6, 8, 10, 12, 14, 16], some (9, 17)) (by decide)
  obtain ⟨len, rest⟩ := Prod.mk.inj view
  obtain ⟨begins, holder⟩ := Prod.mk.inj rest
  have reached : (historyMachine 8).Reachable Free s := ⟨_, _, rfl, run⟩
  exact ⟨s, reached, len, begins, holder, (hekaton_ring reached).2.1⟩

end DBx1000.Hekaton
