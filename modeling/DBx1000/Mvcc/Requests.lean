import Mathlib.Algebra.Order.Ring.WithTop
import DBx1000.Mvcc.Reservation

/-!
# Requests that wait

`buffer_req` adds one request to those that wait. `update_buffer` serves the reads before the
next pending pre-write, and that pre-write: `Woke` says what the loop does to the row, and which
requests it takes out of the array.
-/

namespace DBx1000.Mvcc

open Scan

namespace RowMvcc

variable {V τ : Type*} {r r' : RowMvcc V τ} {gThreadCnt ts : Nat} {minTs next : WithTop Nat}
variable {debug : Bool} {q : ReqEntry τ} {qs qs' : List (Option (ReqEntry τ))}
variable {woken : List (Woken τ)}

/-- The requests that wait. -/
def pending (r : RowMvcc V τ) : List (ReqEntry τ) := r.requests.filterMap id

/-! ### `buffer_req` -/

theorem put_spec (put_ : put q qs = some qs') :
    (qs'.filterMap id).Perm (q :: qs.filterMap id) ∧ qs'.length = qs.length := by
  induction qs generalizing qs' with
  | nil => cases put_
  | cons p qs ih =>
    cases p with
    | none =>
      rw [← Option.some.inj put_]
      exact ⟨List.Perm.refl _, rfl⟩
    | some p =>
      obtain ⟨rest, there, rfl⟩ := Option.map_eq_some_iff.mp put_
      obtain ⟨perm, len⟩ := ih there
      exact ⟨(perm.cons p).trans (List.Perm.swap q p _), congrArg (· + 1) len⟩

/-- There is an entry in the new half of a longer array. -/
theorem put_double {n : Nat} (pos : 0 < n) (qs : List (Option (ReqEntry τ))) :
    ∃ qs', put q (qs ++ List.replicate n none) = some qs' := by
  induction qs with
  | nil =>
    obtain ⟨n, rfl⟩ := Nat.exists_eq_succ_of_ne_zero (Nat.ne_of_gt pos)
    exact ⟨_, rfl⟩
  | cons p qs ih =>
    cases p with
    | none => exact ⟨_, rfl⟩
    | some p =>
      obtain ⟨qs', there⟩ := ih
      refine ⟨some p :: qs', ?_⟩
      rw [List.cons_append, put, there]
      rfl

/-- `buffer_req` adds the request and does nothing else. -/
theorem bufferReq_spec (done : r.bufferReq q = some r') :
    ∃ requests, r' = { r with requests := requests } ∧
      (requests.filterMap id).Perm (q :: r.pending) ∧ r.requests.length ≤ requests.length := by
  unfold bufferReq at done
  split at done
  · next requests there =>
    obtain ⟨perm, len⟩ := put_spec there
    exact ⟨requests, (Option.some.inj done).symm, perm, len.ge⟩
  · obtain ⟨requests, there, rfl⟩ := Option.map_eq_some_iff.mp done
    obtain ⟨perm, len⟩ := put_spec there
    refine ⟨requests, rfl, ?_, ?_⟩
    · rw [List.filterMap_append] at perm
      have none : (List.replicate r.requests.length (none : Option (ReqEntry τ))).filterMap id = [] := by
        rw [List.filterMap_replicate_of_none rfl]
      rw [none, List.append_nil] at perm
      exact perm
    · rw [len, List.length_append]
      exact Nat.le_add_right _ _

theorem bufferReq_total (pos : 0 < r.requests.length) : ∃ r', r.bufferReq q = some r' := by
  unfold bufferReq
  split
  · exact ⟨_, rfl⟩
  · obtain ⟨qs', there⟩ := put_double (q := q) pos r.requests
    rw [there]
    exact ⟨_, rfl⟩

/-! ### `update_buffer` -/

/-- The requests that `update_buffer` serves. -/
def Served (next : WithTop Nat) (q : ReqEntry τ) : Prop :=
  q.type = .R_REQ ∧ WithTop.some q.ts < next ∨ WithTop.some q.ts = next

instance (next : WithTop Nat) (q : ReqEntry τ) : Decidable (Served next q) :=
  inferInstanceAs (Decidable (_ ∨ _))

/-- What the loop does, from the requests `qs` and the row `r` on. -/
structure Woke (gThreadCnt : Nat) (minTs : WithTop Nat) (ts : Nat) (next : WithTop Nat)
    (qs : List (Option (ReqEntry τ))) (r : RowMvcc V τ) (qs' : List (Option (ReqEntry τ)))
    (r' : RowMvcc V τ) (woken : List (Woken τ)) : Prop extends Stays r r' where
  history : History r'
  length : qs'.length = qs.length
  younger : ∀ q ∈ qs.filterMap id, ts < q.ts
  waits : qs'.filterMap id = (qs.filterMap id).filter fun q => ¬ Served next q
  served : woken.map (·.req) = (qs.filterMap id).filter fun q => Served next q
  reads : ∀ w ∈ woken, w.req.type = .R_REQ → w.curRow = r.latestRow ∧ WithTop.some w.req.ts < next
  maxServed : r.maxServedRts ≤ r'.maxServedRts ∧
    (∀ w ∈ woken, w.req.type = .R_REQ → w.req.ts ≤ r'.maxServedRts) ∧
      (r'.maxServedRts = r.maxServedRts ∨
        ∃ w ∈ woken, w.req.type = .R_REQ ∧ w.req.ts = r'.maxServedRts)
  /-- At most one pre-write is served, and none if there is one already. -/
  prewrite : (r'.existsPrewrite = r.existsPrewrite ∧ r'.prewriteTs = r.prewriteTs ∧
      r'.resRow = r.resRow ∧ r'.oldestWts = r.oldestWts ∧ r'.memory = r.memory ∧
        ∀ w ∈ woken, w.req.type = .R_REQ) ∨
    (r.existsPrewrite = false ∧ r'.existsPrewrite = true ∧
      (r'.oldestWts = r.oldestWts ∨ History.Retires gThreadCnt minTs r r'.oldestWts) ∧
        (∃ b a, r'.resRow = some b ∧ r.latestRow = some a ∧
          r'.memory = Function.update r.memory b (r.memory a)) ∧
          ∃ w ∈ woken, w.req.type = .P_REQ ∧ WithTop.some w.req.ts = next ∧
            w.req.ts = r'.prewriteTs ∧ w.curRow = r'.resRow ∧
              ∀ v ∈ woken, v.req.type = .R_REQ ∨ v = w)

namespace Woke

/-- Nothing to do. -/
theorem nil (h : History r) : Woke gThreadCnt minTs ts next [] r [] r [] where
  toStays := .refl r
  history := h
  length := rfl
  younger := nofun
  waits := rfl
  served := rfl
  reads := nofun
  maxServed := ⟨Nat.le_refl _, nofun, .inl rfl⟩
  prewrite := .inl ⟨rfl, rfl, rfl, rfl, rfl, nofun⟩

/-- An entry without a request. -/
theorem skip (h : Woke gThreadCnt minTs ts next qs r qs' r' woken) :
    Woke gThreadCnt minTs ts next (none :: qs) r (none :: qs') r' woken where
  toStays := h.toStays
  history := h.history
  length := congrArg (· + 1) h.length
  younger := h.younger
  waits := h.waits
  served := h.served
  reads := h.reads
  maxServed := h.maxServed
  prewrite := h.prewrite

/-- A request that has to wait on. -/
theorem wait (h : Woke gThreadCnt minTs ts next qs r qs' r' woken) (younger : ts < q.ts)
    (not : ¬ Served next q) :
    Woke gThreadCnt minTs ts next (some q :: qs) r (some q :: qs') r' woken where
  toStays := h.toStays
  history := h.history
  length := congrArg (· + 1) h.length
  younger := by
    intro p hp
    rcases List.mem_cons.mp hp with rfl | hp
    · exact younger
    · exact h.younger p hp
  waits := by
    change q :: qs'.filterMap id = (q :: qs.filterMap id).filter _
    rw [List.filter_cons_of_pos (by simpa using not), h.waits]
  served := by
    change _ = (q :: qs.filterMap id).filter _
    rw [List.filter_cons_of_neg (by simpa using not), h.served]
  reads := h.reads
  maxServed := h.maxServed
  prewrite := h.prewrite

/-- A read is served. -/
theorem read (h : Woke gThreadCnt minTs ts next qs (r.serve q.ts) qs' r' woken)
    (younger : ts < q.ts) (type : q.type = .R_REQ) (lt : WithTop.some q.ts < next) :
    Woke gThreadCnt minTs ts next (some q :: qs) r (none :: qs') r' (⟨q, r.latestRow⟩ :: woken) where
  toStays := ⟨h.latestWts, h.latestRow, h.requests, h.oldest, h.current⟩
  history := h.history
  length := congrArg (· + 1) h.length
  younger := by
    intro p hp
    rcases List.mem_cons.mp hp with rfl | hp
    · exact younger
    · exact h.younger p hp
  waits := by
    have : Served next q := .inl ⟨type, lt⟩
    change qs'.filterMap id = (q :: qs.filterMap id).filter _
    rw [List.filter_cons_of_neg (by simpa using this), h.waits]
  served := by
    have : Served next q := .inl ⟨type, lt⟩
    change q :: woken.map (·.req) = (q :: qs.filterMap id).filter _
    rw [List.filter_cons_of_pos (by simpa using this), h.served]
  reads := by
    intro w hw read
    rcases List.mem_cons.mp hw with rfl | hw
    · exact ⟨rfl, lt⟩
    · exact h.reads w hw read
  maxServed := by
    obtain ⟨grows, covers, from_⟩ := h.maxServed
    -- the loop below keeps the maximum, which covers this read already
    have both : r.maxServedRts ≤ r'.maxServedRts ∧ q.ts ≤ r'.maxServedRts := by
      unfold serve at grows
      dsimp only at grows
      split at grows <;> omega
    refine ⟨both.1, fun w hw read => ?_, ?_⟩
    · rcases List.mem_cons.mp hw with rfl | hw
      · exact both.2
      · exact covers w hw read
    · rcases from_ with same | ⟨w, hw, read, is⟩
      · unfold serve at same
        dsimp only at same
        split at same
        · exact .inr ⟨_, List.mem_cons_self, type, same.symm⟩
        · exact .inl same
      · exact .inr ⟨w, List.mem_cons_of_mem _ hw, read, is⟩
  prewrite := by
    rcases h.prewrite with ⟨pre, stamp, res, oldest, memory, reads⟩ |
      ⟨free, pre, oldest, memory, w, hw, kind, at_, stamp, row, only⟩
    · refine .inl ⟨pre, stamp, res, oldest, memory, fun w hw => ?_⟩
      rcases List.mem_cons.mp hw with rfl | hw
      · exact type
      · exact reads w hw
    · -- the pre-write that is served is still the only one
      refine .inr ⟨free, pre, oldest, memory, w, List.mem_cons_of_mem _ hw, kind, at_, stamp, row,
        fun v hv => ?_⟩
      rcases List.mem_cons.mp hv with rfl | hv
      · exact .inl type
      · exact only v hv

/-- The next pre-write is served. -/
theorem promote {p : RowMvcc V τ} {b a : Nat} (keeps : Keeps r p)
    (free : r.existsPrewrite = false) (pre : p.existsPrewrite = true) (stamp : p.prewriteTs = q.ts)
    (row : p.resRow = some b) (latest : r.latestRow = some a)
    (oldest : p.oldestWts = r.oldestWts ∨ History.Retires gThreadCnt minTs r p.oldestWts)
    (h : Woke gThreadCnt minTs ts next qs
      { p with memory := Function.update r.memory b (r.memory a) } qs' r' woken)
    (younger : ts < q.ts) (type : q.type = .P_REQ) (is : WithTop.some q.ts = next) :
    Woke gThreadCnt minTs ts next (some q :: qs) r (none :: qs') r' (⟨q, some b⟩ :: woken) where
  toStays := keeps.toStays.trans ⟨h.latestWts, h.latestRow, h.requests, h.oldest, h.current⟩
  history := h.history
  length := congrArg (· + 1) h.length
  younger := by
    intro p hp
    rcases List.mem_cons.mp hp with rfl | hp
    · exact younger
    · exact h.younger p hp
  waits := by
    have : Served next q := .inr is
    change qs'.filterMap id = (q :: qs.filterMap id).filter _
    rw [List.filter_cons_of_neg (by simpa using this), h.waits]
  served := by
    have : Served next q := .inr is
    change q :: woken.map (·.req) = (q :: qs.filterMap id).filter _
    rw [List.filter_cons_of_pos (by simpa using this), h.served]
  reads := by
    intro w hw read
    rcases List.mem_cons.mp hw with rfl | hw
    · rw [type] at read
      cases read
    · have := h.reads w hw read
      exact ⟨this.1.trans keeps.latestRow, this.2⟩
  maxServed := by
    obtain ⟨grows, covers, from_⟩ := h.maxServed
    -- the reservation leaves the largest read alone
    have same : ({ p with memory := Function.update r.memory b (r.memory a) } :
        RowMvcc V τ).maxServedRts = r.maxServedRts := keeps.maxServedRts
    rw [same] at grows from_
    refine ⟨grows, fun w hw read => ?_, ?_⟩
    · rcases List.mem_cons.mp hw with rfl | hw
      · rw [type] at read
        cases read
      · exact covers w hw read
    · rcases from_ with same | ⟨w, hw, read, is⟩
      · exact .inl same
      · exact .inr ⟨w, List.mem_cons_of_mem _ hw, read, is⟩
  prewrite := by
    -- with this pre-write, the rest of the loop serves no other
    rcases h.prewrite with ⟨still, stamp', res, oldest', memory, reads⟩ | ⟨no, -⟩
    · refine .inr ⟨free, still.trans pre, ?_, ⟨b, a, res.trans row, latest, memory⟩, _,
        List.mem_cons_self, type, is, (stamp'.trans stamp).symm, (res.trans row).symm, fun v hv => ?_⟩
      · rw [oldest']
        exact oldest
      · rcases List.mem_cons.mp hv with rfl | hv
        · exact .inr rfl
        · exact .inl (reads v hv)
    · change p.existsPrewrite = false at no
      rw [pre] at no
      cases no

end Woke

theorem History.serve (h : History r) (ts : Nat) : History (r.serve ts) :=
  ⟨h.nonempty, h.count, h.range, h.stamps, h.oldest_le, h.reserved, h.pending, h.base, h.rows,
    h.latest, h.distinct, h.allocated⟩

/-- The loop serves what it should, unless an assertion fails. -/
theorem wake_spec (h : History r) (latest : r.latestWts ≤ ts)
    (done : wake debug gThreadCnt minTs ts next qs r = some (qs', r', woken)) :
    Woke gThreadCnt minTs ts next qs r qs' r' woken := by
  induction qs generalizing r qs' woken with
  | nil =>
    cases done
    exact .nil h
  | cons q qs ih =>
    cases q with
    | none =>
      rw [wake] at done
      obtain ⟨⟨qs', p, woken⟩, rest, is⟩ := Option.map_eq_some_iff.mp done
      cases is
      exact (ih h latest rest).skip
    | some q =>
      rw [wake] at done
      split at done
      · cases done
      · next younger =>
        have younger := Nat.not_le.mp younger
        split at done
        · -- a read in front of the next pre-write is served
          next read =>
          obtain ⟨⟨qs', p, woken⟩, rest, is⟩ := Option.map_eq_some_iff.mp done
          cases is
          exact (ih (h.serve q.ts) latest rest).read younger read.1 read.2
        · next noRead =>
          split at done
          · next is =>
            split at done
            · -- the pre-write itself reserves a row
              next type =>
              obtain ⟨p, pre, then_⟩ := Option.bind_eq_some_iff.mp done
              obtain ⟨⟨qs', p', woken⟩, rest, same⟩ := Option.map_eq_some_iff.mp then_
              cases same
              -- a second one would fail the assertion of `reserve`
              have free : r.existsPrewrite = false := by
                by_contra some
                unfold RowMvcc.prewrite reserveRow at pre
                rw [if_pos (by simpa using some)] at pre
                cases pre
              obtain ⟨p₀, b, a, result, history, keeps, made, stamp, row, source, oldest⟩ :=
                h.prewrite debug gThreadCnt minTs free
                  (Nat.lt_of_le_of_lt latest younger)
              rw [result] at pre
              obtain rfl := Option.some.inj pre
              have tail := ih (history.setMemory _) (by rw [keeps.latestWts]; exact latest) rest
              have := tail.promote keeps free made stamp row source oldest younger type is
              rw [← row] at this
              exact this
            · cases done
          · -- all others wait on
            next isNot =>
            obtain ⟨⟨qs', p, woken⟩, rest, same⟩ := Option.map_eq_some_iff.mp done
            cases same
            refine (ih h latest rest).wait younger fun served => ?_
            rcases served with read | is
            · exact noRead read
            · exact isNot is

/-- No assertion of the loop fails if the requests are younger than the pre-write that ends, and
only a pre-write has the timestamp of the next one. -/
theorem wake_total (debug : Bool) (gThreadCnt : Nat) (minTs : WithTop Nat) (h : History r)
    (latest : r.latestWts ≤ ts)
    (younger : ∀ q ∈ qs.filterMap id, ts < q.ts)
    (kinds : ∀ q ∈ qs.filterMap id, WithTop.some q.ts = next → q.type = .P_REQ)
    (distinct : ((qs.filterMap id).map (·.ts)).Nodup)
    (once : r.existsPrewrite = true → ∀ q ∈ qs.filterMap id, WithTop.some q.ts ≠ next) :
    ∃ result, wake debug gThreadCnt minTs ts next qs r = some result := by
  induction qs generalizing r with
  | nil => exact ⟨_, rfl⟩
  | cons q qs ih =>
    cases q with
    | none =>
      obtain ⟨result, rest⟩ := ih h latest younger kinds distinct once
      rw [wake, rest]
      exact ⟨_, rfl⟩
    | some q =>
      have head : ts < q.ts := younger q List.mem_cons_self
      have younger' : ∀ q ∈ qs.filterMap id, ts < q.ts := fun p hp =>
        younger p (List.mem_cons_of_mem q hp)
      have kinds' : ∀ q ∈ qs.filterMap id, WithTop.some q.ts = next → q.type = .P_REQ :=
        fun p hp => kinds p (List.mem_cons_of_mem q hp)
      have distinct := List.nodup_cons.mp distinct
      rw [wake, if_neg (Nat.not_le.mpr head)]
      split
      · obtain ⟨result, rest⟩ := ih (h.serve q.ts) latest younger' kinds' distinct.2
          fun pre p hp => once pre p (List.mem_cons_of_mem q hp)
        rw [rest]
        exact ⟨_, rfl⟩
      · split
        · next is =>
          rw [if_pos (kinds q List.mem_cons_self is)]
          have free : r.existsPrewrite = false := by
            by_contra some
            exact once (by simpa using some) q List.mem_cons_self is
          obtain ⟨p, b, a, result, history, keeps, -⟩ :=
            h.prewrite debug gThreadCnt minTs free
              (Nat.lt_of_le_of_lt latest head)
          obtain ⟨rest, tail⟩ := ih (history.setMemory (Function.update r.memory b (r.memory a)))
            (by rw [keeps.latestWts]; exact latest) younger' kinds' distinct.2 fun _ p hp same => by
              refine distinct.1 (List.mem_map.mpr ⟨p, hp, ?_⟩)
              exact WithTop.coe_inj.mp (same.trans is.symm)
          rw [result, Option.bind_some, tail]
          exact ⟨_, rfl⟩
        · obtain ⟨result, rest⟩ := ih h latest younger' kinds' distinct.2
            fun pre p hp => once pre p (List.mem_cons_of_mem q hp)
          rw [rest]
          exact ⟨_, rfl⟩

/-- The next pending pre-write is one, and no other is before it. -/
theorem nextPreTs_spec (ts : Nat) (qs : List (Option (ReqEntry τ))) :
    (∀ q ∈ qs.filterMap id, q.type = .P_REQ → ts < q.ts → nextPreTs ts qs ≤ q.ts) ∧
      (nextPreTs ts qs = ⊤ ∨ ∃ q ∈ qs.filterMap id, q.type = .P_REQ ∧ ts < q.ts ∧
        WithTop.some q.ts = nextPreTs ts qs) := by
  unfold nextPreTs
  rcases scanMin_cases (fun q : ReqEntry τ => q.type = .P_REQ ∧ q.ts > ts)
    (fun q => WithTop.some q.ts) (qs.filterMap id) ⊤ with ⟨none, all⟩ |
      ⟨n, q, at_, ok, -, found, least⟩
  · rw [none]
    exact ⟨fun q hq type younger => all q hq ⟨type, younger⟩, .inl rfl⟩
  · rw [found]
    exact ⟨fun p hp type younger => least p hp ⟨type, younger⟩,
      .inr ⟨q, List.mem_of_getElem? at_, ok.1, ok.2, rfl⟩⟩

end RowMvcc

end DBx1000.Mvcc
