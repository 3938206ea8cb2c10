import DBx1000.Timestamp.Queues

/-!
# The end of a pre-write

What `update_buffer` does. `Register` is what timestamp ordering promises of one row: a read is
served with the last write, not before that write in timestamp order, and a write is made after the
reads that were served. The loop refines it: its acts are acts of the register.
-/

namespace DBx1000.Timestamp

variable {V τ : Type}

/-! ### The register -/

/-- A value, with the greatest timestamps of its writes and reads. -/
structure Register (V : Type) where
  row : V
  wts : Nat
  rts : Nat

namespace Register

/-- Acts of timestamp ordering, one after another. -/
inductive Runs : Register V → List (Act V τ) → Register V → Prop
  | nil (x : Register V) : Runs x [] x
  | read {x y : Register V} {acts : List (Act V τ)} (txn : τ) {ts : Nat} (le : x.wts ≤ ts)
      (rest : Runs { x with rts := max x.rts ts } acts y) : Runs x (.read txn ts x.row :: acts) y
  | write {x y : Register V} {acts : List (Act V τ)} {ts : Nat} {row : V} (le : x.rts ≤ ts)
      (rest : Runs ⟨row, max x.wts ts, x.rts⟩ acts y) : Runs x (.write ts row :: acts) y

theorem Runs.append {x y z : Register V} {acts acts' : List (Act V τ)} (first : Runs x acts y)
    (second : Runs y acts' z) : Runs x (acts ++ acts') z := by
  induction first with
  | nil => exact second
  | read txn le _ ih => exact .read txn le (ih second)
  | write le _ ih => exact .write le (ih second)

end Register

def Act.ts : Act V τ → Nat
  | .read _ ts _ => ts
  | .write ts _ => ts

def Act.isRead : Act V τ → Bool
  | .read _ _ _ => true
  | .write _ _ => false

/-- The row after these acts. -/
def rowAfter (row : V) : List (Act V τ) → V
  | [] => row
  | .read _ _ _ :: acts => rowAfter row acts
  | .write _ row :: acts => rowAfter row acts

namespace Register.Runs

variable {x y : Register V} {acts : List (Act V τ)}

/-- The timestamps of the row do not go down, and lie around those of the acts. -/
theorem grows (runs : Runs x acts y) : x.wts ≤ y.wts ∧ x.rts ≤ y.rts ∧ ∀ a ∈ acts,
    if a.isRead then x.wts ≤ a.ts ∧ a.ts ≤ y.rts else x.rts ≤ a.ts ∧ a.ts ≤ y.wts := by
  induction runs with
  | nil x => exact ⟨Nat.le_refl _, Nat.le_refl _, fun a ha => absurd ha List.not_mem_nil⟩
  | @read x y acts txn ts le _ ih =>
    obtain ⟨wts, rts, between⟩ := ih
    have here : x.rts ≤ y.rts ∧ ts ≤ y.rts := Nat.max_le.mp rts
    refine ⟨wts, here.1, fun a ha => ?_⟩
    rcases List.mem_cons.mp ha with rfl | ha
    · exact ⟨le, here.2⟩
    · have old := between a ha
      cases isRead : a.isRead with
      | true => simpa [isRead] using old
      | false =>
        simp only [isRead, Bool.false_eq_true, if_false] at old ⊢
        exact ⟨(le_max_left _ _).trans old.1, old.2⟩
  | @write x y acts ts row le _ ih =>
    obtain ⟨wts, rts, between⟩ := ih
    have here : x.wts ≤ y.wts ∧ ts ≤ y.wts := Nat.max_le.mp wts
    refine ⟨here.1, rts, fun a ha => ?_⟩
    rcases List.mem_cons.mp ha with rfl | ha
    · exact ⟨le, here.2⟩
    · have old := between a ha
      cases isRead : a.isRead with
      | true =>
        simp only [isRead, if_true] at old ⊢
        exact ⟨(le_max_left _ _).trans old.1, old.2⟩
      | false => simpa [isRead] using old

/-- A read and a write follow each other in the order of their timestamps. -/
theorem ordered (runs : Runs x acts y) :
    acts.Pairwise fun a b => a.isRead ≠ b.isRead → a.ts ≤ b.ts := by
  induction runs with
  | nil => exact List.Pairwise.nil
  | @read x y acts txn ts le rest ih =>
    refine List.pairwise_cons.mpr ⟨fun b hb differ => ?_, ih⟩
    have between := rest.grows.2.2 b hb
    have isWrite : b.isRead = false := Bool.eq_false_iff.mpr (Ne.symm differ)
    simp only [isWrite, Bool.false_eq_true, if_false] at between
    exact (le_max_right _ _).trans between.1
  | @write x y acts ts row le rest ih =>
    refine List.pairwise_cons.mpr ⟨fun b hb differ => ?_, ih⟩
    have between := rest.grows.2.2 b hb
    have isRead : b.isRead = true := Bool.eq_true_of_not_eq_false (Ne.symm differ)
    simp only [isRead, if_true] at between
    exact (le_max_right _ _).trans between.1

/-- A read gets what the last write before it has written. -/
theorem reads_last (runs : Runs x acts y) {front back : List (Act V τ)} {txn : τ} {ts : Nat} {v : V}
    (split : acts = front ++ .read txn ts v :: back) : v = rowAfter x.row front := by
  induction runs generalizing front with
  | nil => simp at split
  | read txn' le _ ih =>
    cases front with
    | nil =>
      cases split
      rfl
    | cons a front =>
      obtain ⟨rfl, rest⟩ := List.cons.inj split
      have last := ih rest
      exact last
  | write le _ ih =>
    cases front with
    | nil => cases split
    | cons a front =>
      obtain ⟨rfl, rest⟩ := List.cons.inj split
      have last := ih rest
      exact last

theorem rowAfter_eq (runs : Runs x acts y) : y.row = rowAfter x.row acts := by
  induction runs with
  | nil => rfl
  | read txn le _ ih => exact ih
  | write le _ ih => exact ih

end Register.Runs

/-- Reads at a row whose last write is before them. -/
theorem Register.runs_serve (row : V) (wts : Nat) {ready : List (TsReqEntry V τ)} {m : WithTop Nat}
    {rts : Nat} (le : (rts : WithTop Nat) ≤ m)
    (between : ∀ req ∈ ready, wts ≤ req.ts ∧ (req.ts : WithTop Nat) ≤ m) :
    Runs ⟨row, wts, rts⟩ (ready.map fun req => Act.read req.txn req.ts row)
      ⟨row, wts, ready.foldl (fun rts req => if rts < req.ts then req.ts else rts) rts⟩ ∧
      ((ready.foldl (fun rts req => if rts < req.ts then req.ts else rts) rts : Nat) :
        WithTop Nat) ≤ m := by
  induction ready generalizing rts with
  | nil => exact ⟨.nil _, le⟩
  | cons req ready ih =>
    obtain ⟨above, below⟩ := between req List.mem_cons_self
    -- the update of the read timestamp is a maximum
    have greater : (if rts < req.ts then req.ts else rts) = max rts req.ts := by
      split
      · next lt => exact (Nat.max_eq_right (Nat.le_of_lt lt)).symm
      · next ge => exact (Nat.max_eq_left (Nat.not_lt.mp ge)).symm
    have le' : ((max rts req.ts : Nat) : WithTop Nat) ≤ m := by
      rcases Nat.le_total rts req.ts with h | h
      · rwa [Nat.max_eq_right h]
      · rwa [Nat.max_eq_left h]
    rw [List.foldl_cons, List.map_cons, greater]
    obtain ⟨runs, bounded⟩ := ih le' fun q hq => between q (List.mem_cons_of_mem req hq)
    exact ⟨.read req.txn above runs, bounded⟩

/-! ### The loop -/

/-- What holds when nothing is due, and in the loop except that the pre-writes may have become
fewer. -/
structure RowTs.Settled (r : RowTs V τ) : Prop where
  minPts : r.minPts ≤ calMin r.prereq
  minRts : r.minRts = calMin r.readreq
  reads : ∀ req ∈ r.readreq, r.minPts < req.ts ∧ r.wts ≤ req.ts
  rts : (r.rts : WithTop Nat) ≤ r.minPts
  rows : ∀ req ∈ r.writereq, req.row ≠ none

/-- Each write that waits has its pre-write in the queue, and so has each of the `pending` writes
that a transaction will still make or roll back; the oldest pre-write is not younger than these. -/
structure RowTs.Owned [DecidableEq τ] (pending ts : τ → Nat) (r : RowTs V τ) : Prop where
  count : ∀ t, (entriesOf t r.prereq).length = (entriesOf t r.writereq).length + pending t
  oldest : ∀ t, ∀ p ∈ (entriesOf t r.prereq).getLast?,
    p.ts ≤ ts t ∧ ∀ req ∈ entriesOf t r.writereq, p.ts ≤ req.ts

variable [DecidableEq τ] {r : RowTs V τ} {pending ts : τ → Nat}

/-- The register of a row. -/
def RowTs.register (r : RowTs V τ) : Register V := ⟨r.row, r.wts, r.rts⟩

/-! ### One turn -/

theorem debufferAll_spec {reqs : List (TsReqEntry V τ)} {prereq : List (TsReqEntry V τ)}
    (enough : ∀ t, (entriesOf t reqs).length ≤ (entriesOf t prereq).length) : ∃ rest,
    RowTs.debufferAll reqs prereq = some rest ∧ rest ⊆ prereq ∧
      ∀ t, entriesOf t rest = (entriesOf t prereq).drop (entriesOf t reqs).length := by
  induction reqs generalizing prereq with
  | nil => exact ⟨prereq, rfl, List.Subset.refl _, fun t => rfl⟩
  | cons req reqs ih =>
    have mine : entriesOf req.txn (req :: reqs) = req :: entriesOf req.txn reqs := by
      simp [entriesOf]
    have other {t : τ} (ne : t ≠ req.txn) : entriesOf t (req :: reqs) = entriesOf t reqs := by
      simp [entriesOf, Ne.symm ne]
    have here := enough req.txn
    rw [mine, List.length_cons] at here
    -- each write has a pre-write that can be taken out
    have there : entriesOf req.txn prereq ≠ [] := List.ne_nil_of_length_pos (by omega)
    obtain ⟨found, left, eq, sub, entries⟩ := debufferTxn_spec there
    have enough' : ∀ t, (entriesOf t reqs).length ≤ (entriesOf t left).length := by
      intro t
      rw [entries t]
      split
      · next same =>
        rw [same, List.length_tail]
        omega
      · next ne => exact other ne ▸ enough t
    obtain ⟨rest, eq', sub', entries'⟩ := ih enough'
    refine ⟨rest, ?_, List.Subset.trans sub' sub, fun t => ?_⟩
    · rw [RowTs.debufferAll, eq]
      exact eq'
    · rw [entries' t, entries t]
      split
      · next same => rw [same, mine, List.length_cons, List.drop_tail]
      · next ne => rw [other ne]

namespace RowTs

/-- The row when the reads up to the oldest pre-write have been served. -/
def afterReads (r : RowTs V τ) : RowTs V τ :=
  { r with
    minPts := calMin r.prereq
    rts := (r.readreq.filter fun req => (req.ts : WithTop Nat) ≤ calMin r.prereq).reverse.foldl
      (fun rts req => if rts < req.ts then req.ts else rts) r.rts
    readreq := r.readreq.filter fun req => calMin r.prereq < (req.ts : WithTop Nat)
    minRts := calMin (r.readreq.filter fun req => calMin r.prereq < (req.ts : WithTop Nat)) }

def readyReads (r : RowTs V τ) : List (Act V τ) :=
  (r.readreq.filter fun req => (req.ts : WithTop Nat) ≤ calMin r.prereq).reverse.map
    fun req => .read req.txn req.ts r.row

def readyWrites (r : RowTs V τ) : List (TsReqEntry V τ) :=
  (r.writereq.filter fun req => (req.ts : WithTop Nat) ≤ r.minRts).reverse

/-- A turn serves reads and stops, or goes on with the write that is the oldest one among those
before all waiting reads. -/
theorem Settled.turn (settled : r.Settled) (turns : Nat) (more : r.minPts ≠ calMin r.prereq) :
    r.updateLoop (turns + 1) = some (r.afterReads, r.readyReads) ∨
    r.afterReads.readyWrites ≠ [] ∧ r.updateLoop (turns + 1) = do
      let prereq ← debufferAll r.afterReads.readyWrites r.prereq
      let young ← youngReq r.afterReads.readyWrites
      let row ← young.row
      let (r', acts) ← updateLoop turns
        ({ r.afterReads with
          writereq := r.writereq.filter fun req => r.afterReads.minRts < (req.ts : WithTop Nat)
          prereq := prereq }.put young.ts row)
      return (r', r.readyReads ++ .write young.ts row :: acts) := by
  have lt : r.minPts < calMin r.prereq := lt_of_le_of_ne settled.minPts more
  rw [updateLoop, if_neg (not_lt.mpr settled.minPts), if_neg (not_not.mpr lt)]
  dsimp only
  rw [debufferTs_eq, List.append_nil]
  dsimp only
  -- without the reads that are served the minimum can only be greater
  have least : calMin r.readreq ≤
      calMin (r.readreq.filter fun req => calMin r.prereq < (req.ts : WithTop Nat)) :=
    calMin_anti (List.filter_subset_self _)
  split
  · next none =>
    -- no read is ready
    have all := filter_of_none (List.reverse_eq_nil_iff.mp none)
    left
    rw [afterReads, readyReads, none, all, ← settled.minRts]
    rfl
  · next some =>
    rw [serve]
    dsimp only
    split
    · next same =>
      -- the minimum of the reads is the same, so no write is ready
      have eq := le_antisymm (not_lt.mp same) (settled.minRts ▸ least)
      left
      rw [afterReads, readyReads, eq]
    · rw [debufferTs_eq, List.append_nil]
      dsimp only
      split
      · next none =>
        have all := filter_of_none (List.reverse_eq_nil_iff.mp none)
        left
        rw [all]
        rfl
      · next more => exact .inr ⟨more, rfl⟩

omit [DecidableEq τ] in
theorem register_put (r : RowTs V τ) (ts : Nat) (row : V) :
    (r.put ts row).register = ⟨row, max r.wts ts, r.rts⟩ := by
  have greater : (if r.wts < ts then ts else r.wts) = max r.wts ts := by
    split
    · next lt => exact (Nat.max_eq_right (Nat.le_of_lt lt)).symm
    · next ge => exact (Nat.max_eq_left (Nat.not_lt.mp ge)).symm
  rw [register, put, greater]

/-- What the loop makes of a row. -/
structure Updated (pending ts : τ → Nat) (r r' : RowTs V τ) (acts : List (Act V τ)) : Prop where
  settled : r'.Settled
  minPts : r'.minPts = calMin r'.prereq
  owned : r'.Owned pending ts
  le : r.minPts ≤ r'.minPts
  runs : r.register.Runs acts r'.register
  readreq : r'.readreq = r.readreq.filter fun req => r'.minPts < (req.ts : WithTop Nat)
  served : ∀ t n, (∃ v, Act.read t n v ∈ acts) ↔
    ∃ req ∈ r.readreq, req.txn = t ∧ req.ts = n ∧ (n : WithTop Nat) ≤ r'.minPts

theorem Settled.afterReads (settled : r.Settled) (owned : r.Owned pending ts) :
    Updated pending ts r r.afterReads r.readyReads := by
  have le := settled.minPts
  have rest {req : TsReqEntry V τ} (hreq : req ∈ r.afterReads.readreq) :
      req ∈ r.readreq ∧ calMin r.prereq < (req.ts : WithTop Nat) := by
    have := List.mem_filter.mp hreq
    exact ⟨this.1, of_decide_eq_true this.2⟩
  -- the reads that are served lie between the last write and the pre-writes
  have between : ∀ req ∈ (r.readreq.filter fun req =>
      (req.ts : WithTop Nat) ≤ calMin r.prereq).reverse,
      r.wts ≤ req.ts ∧ (req.ts : WithTop Nat) ≤ calMin r.prereq := by
    intro req hreq
    obtain ⟨mem, below⟩ := List.mem_filter.mp (List.mem_reverse.mp hreq)
    exact ⟨(settled.reads req mem).2, of_decide_eq_true below⟩
  have serves := Register.runs_serve r.row r.wts (settled.rts.trans le) between
  refine ⟨⟨le_rfl, rfl, fun req hreq => ⟨(rest hreq).2, (settled.reads req (rest hreq).1).2⟩,
    serves.2, settled.rows⟩, rfl, ⟨owned.count, owned.oldest⟩, le, serves.1, rfl, fun t n => ?_⟩
  constructor
  · rintro ⟨v, mem⟩
    obtain ⟨req, hreq, eq⟩ := List.mem_map.mp mem
    cases eq
    obtain ⟨mem, below⟩ := List.mem_filter.mp (List.mem_reverse.mp hreq)
    exact ⟨req, mem, rfl, rfl, of_decide_eq_true below⟩
  · rintro ⟨req, hreq, rfl, rfl, below⟩
    refine ⟨r.row, List.mem_map.mpr ⟨req, ?_, rfl⟩⟩
    exact List.mem_reverse.mpr (List.mem_filter.mpr ⟨hreq, decide_eq_true below⟩)

theorem entriesOf_length_filter (queue : List (TsReqEntry V τ)) (t : τ) (m : WithTop Nat) :
    (entriesOf t queue).length =
      (entriesOf t (queue.filter fun req => (req.ts : WithTop Nat) ≤ m).reverse).length +
      (entriesOf t (queue.filter fun req => m < (req.ts : WithTop Nat))).length := by
  have other : (queue.filter fun req => m < (req.ts : WithTop Nat)) =
      queue.filter fun req => !decide ((req.ts : WithTop Nat) ≤ m) := by
    refine List.filter_congr fun req _ => ?_
    rw [← decide_not, decide_eq_decide, not_le]
  unfold entriesOf
  rw [other, List.filter_reverse, List.length_reverse, ← List.countP_eq_length_filter,
    ← List.countP_eq_length_filter, ← List.countP_eq_length_filter]
  exact List.countP_eq_countP_filter_add ..

/-- The oldest write of those that wait for nothing any more is not before a read. -/
theorem Settled.oldest_le (settled : r.Settled) {t : τ}
    (some : entriesOf t r.prereq ≠ []) : ∃ p ∈ (entriesOf t r.prereq).getLast?, r.rts ≤ p.ts := by
  refine ⟨_, List.getLast?_eq_some_getLast some, ?_⟩
  have mem : (entriesOf t r.prereq).getLast some ∈ r.prereq :=
    List.mem_of_mem_filter (List.getLast_mem some)
  exact WithTop.coe_le_coe.mp (settled.rts.trans (settled.minPts.trans (calMin_le mem)))

omit [DecidableEq τ] in
/-- A write before the reads that wait. -/
theorem Settled.put {ts : Nat} (settled : r.Settled) (first : (ts : WithTop Nat) ≤ r.minRts)
    (v : V) : (r.put ts v).Settled := by
  refine ⟨settled.minPts, settled.minRts, fun req hreq => ⟨(settled.reads req hreq).1, ?_⟩,
    settled.rts, settled.rows⟩
  have before : ts ≤ req.ts :=
    WithTop.coe_le_coe.mp (first.trans (settled.minRts ▸ calMin_le hreq))
  change (if r.wts < ts then ts else r.wts) ≤ req.ts
  split
  · exact before
  · exact (settled.reads req hreq).2

/-- The state that the loop goes on with. -/
theorem Settled.afterWrites (settled : r.Settled) (owned : r.Owned pending ts)
    (more : r.readyWrites ≠ []) (exact : r.minPts = calMin r.prereq) :
    ∃ prereq young row, debufferAll r.readyWrites r.prereq = some prereq ∧
      youngReq r.readyWrites = some young ∧ young.row = some row ∧ r.rts ≤ young.ts ∧
      (r.writereq.filter fun req => r.minRts < (req.ts : WithTop Nat)).length < r.writereq.length ∧
      ({ r with
        writereq := r.writereq.filter fun req => r.minRts < (req.ts : WithTop Nat)
        prereq := prereq }.put young.ts row).Settled ∧
      ({ r with
        writereq := r.writereq.filter fun req => r.minRts < (req.ts : WithTop Nat)
        prereq := prereq }.put young.ts row).Owned pending ts := by
  have parts := fun t => entriesOf_length_filter r.writereq t r.minRts
  have count := owned.count
  -- each write that is ready has its pre-write
  have enough : ∀ t, (entriesOf t r.readyWrites).length ≤ (entriesOf t r.prereq).length := by
    intro t
    have := parts t
    have := count t
    unfold readyWrites
    omega
  obtain ⟨prereq, eq, sub, entries⟩ := debufferAll_spec enough
  obtain ⟨young, mem, isYoung⟩ := youngReq_spec more
  obtain ⟨inside, ready⟩ := List.mem_filter.mp (List.mem_reverse.mp mem)
  obtain ⟨row, isRow⟩ := Option.ne_none_iff_exists'.mp (settled.rows young inside)
  have le : (young.ts : WithTop Nat) ≤ r.minRts := of_decide_eq_true ready
  have mine : young ∈ entriesOf young.txn r.writereq :=
    List.mem_filter.mpr ⟨inside, decide_eq_true rfl⟩
  -- the oldest pre-write of its transaction is between the reads and the write
  have some : entriesOf young.txn r.prereq ≠ [] := by
    have pos := List.length_pos_of_mem mine
    have := count young.txn
    exact List.ne_nil_of_length_pos (by omega)
  obtain ⟨p, isLast, above⟩ := settled.oldest_le some
  have below := (owned.oldest _ p isLast).2 young mine
  refine ⟨prereq, young, row, eq, isYoung, isRow, above.trans below, ?_, ?_, ⟨fun t => ?_, ?_⟩⟩
  · -- the youngest one leaves the queue
    have fewer : young ∉ r.writereq.filter fun req => r.minRts < (req.ts : WithTop Nat) := by
      intro kept
      exact absurd (of_decide_eq_true (List.mem_filter.mp kept).2) (not_lt.mpr le)
    exact List.length_filter_lt_length_iff_exists.mpr ⟨young, inside, by simpa using le⟩
  · have left : RowTs.Settled { r with
        writereq := r.writereq.filter fun req => r.minRts < (req.ts : WithTop Nat)
        prereq := prereq } := by
      refine ⟨exact ▸ calMin_anti sub, settled.minRts, settled.reads, settled.rts, ?_⟩
      exact fun req hreq => settled.rows req (List.mem_of_mem_filter hreq)
    exact left.put le row
  · have := parts t
    have := count t
    change (entriesOf t prereq).length = (entriesOf t (r.writereq.filter _)).length + pending t
    rw [entries, List.length_drop]
    unfold readyWrites
    omega
  · intro t p isLast
    change p ∈ (entriesOf t prereq).getLast? at isLast
    rw [entries, List.getLast?_drop] at isLast
    split at isLast
    · cases isLast
    · obtain ⟨le, before⟩ := owned.oldest t p isLast
      exact ⟨le, fun req hreq => before req (List.filter_subset _ (List.filter_subset_self _) hreq)⟩

/-- The turns behind the first one go on from the write. -/
theorem Updated.writes {r₁ r₂ r' : RowTs V τ} {reads acts : List (Act V τ)} {n : Nat} {row : V}
    (first : Updated pending ts r r₁ reads) (le : r₁.rts ≤ n) (rest : Updated pending ts r₂ r' acts)
    (same : r₂.readreq = r₁.readreq) (min : r₂.minPts = r₁.minPts)
    (register : r₂.register = ⟨row, max r₁.wts n, r₁.rts⟩) :
    Updated pending ts r r' (reads ++ .write n row :: acts) where
  settled := rest.settled
  minPts := rest.minPts
  owned := rest.owned
  le := first.le.trans (min ▸ rest.le)
  runs := by
    have runs := rest.runs
    rw [register] at runs
    exact first.runs.append (.write le runs)
  readreq := by
    rw [rest.readreq, same, first.readreq, List.filter_filter]
    refine List.filter_congr fun req _ => ?_
    have later : r'.minPts < (req.ts : WithTop Nat) → r₁.minPts < (req.ts : WithTop Nat) :=
      fun lt => (min ▸ rest.le).trans_lt lt
    simpa using later
  served t k := by
    have le := min ▸ rest.le
    constructor
    · rintro ⟨v, mem⟩
      rcases List.mem_append.mp mem with mem | mem
      · obtain ⟨req, hreq, txn, ts, before⟩ := (first.served t k).mp ⟨v, mem⟩
        exact ⟨req, hreq, txn, ts, before.trans le⟩
      · rcases List.mem_cons.mp mem with never | mem
        · cases never
        · obtain ⟨req, hreq, found⟩ := (rest.served t k).mp ⟨v, mem⟩
          rw [same, first.readreq] at hreq
          exact ⟨req, List.mem_of_mem_filter hreq, found⟩
    · rintro ⟨req, hreq, txn, ts, before⟩
      -- served before the write or after it
      rcases le_or_gt (k : WithTop Nat) r₁.minPts with early | late
      · obtain ⟨v, mem⟩ := (first.served t k).mpr ⟨req, hreq, txn, ts, early⟩
        exact ⟨v, List.mem_append_left _ mem⟩
      · have left : req ∈ r₂.readreq := by
          rw [same, first.readreq]
          exact List.mem_filter.mpr ⟨hreq, decide_eq_true (ts ▸ late)⟩
        obtain ⟨v, mem⟩ := (rest.served t k).mpr ⟨req, left, txn, ts, before⟩
        exact ⟨v, List.mem_append_right _ (List.mem_cons_of_mem _ mem)⟩

theorem updateLoop_same {turns : Nat} (same : r.minPts = calMin r.prereq) :
    r.updateLoop (turns + 1) = some (r, []) := by
  rw [updateLoop, if_neg (not_lt.mpr same.le), if_pos (not_lt.mpr same.ge)]

theorem updateLoop_spec {turns : Nat} (settled : r.Settled) (owned : r.Owned pending ts)
    (enough : r.writereq.length < turns) :
    ∃ r' acts, r.updateLoop turns = some (r', acts) ∧ Updated pending ts r r' acts := by
  induction turns generalizing r with
  | zero => exact absurd enough (Nat.not_lt_zero _)
  | succ turns ih =>
    -- the minimum has not changed, so nobody is served
    by_cases same : r.minPts = calMin r.prereq
    · refine ⟨r, [], updateLoop_same same, settled, same, owned, le_rfl, .nil _, ?_, fun t n => ?_⟩
      · exact (List.filter_eq_self.mpr fun req hreq =>
          decide_eq_true (settled.reads req hreq).1).symm
      · constructor
        · rintro ⟨v, mem⟩
          exact absurd mem List.not_mem_nil
        · rintro ⟨req, hreq, -, rfl, le⟩
          exact absurd (settled.reads req hreq).1 (not_lt.mpr le)
    have reads := settled.afterReads owned
    rcases settled.turn turns same with stops | ⟨more, goes⟩
    · exact ⟨_, _, stops, reads⟩
    · obtain ⟨prereq, young, row, isPrereq, isYoung, isRow, le, fewer, settled', owned'⟩ :=
        reads.settled.afterWrites reads.owned more rfl
      have enough' := Nat.lt_of_lt_of_le fewer (Nat.lt_succ_iff.mp enough)
      obtain ⟨r', acts, eq, rest⟩ := ih settled' owned' enough'
      refine ⟨r', r.readyReads ++ .write young.ts row :: acts, ?_, ?_⟩
      · have start : debufferAll r.afterReads.readyWrites r.prereq = some prereq := isPrereq
        rw [goes]
        refine Option.bind_eq_some_iff.mpr ⟨prereq, start, ?_⟩
        refine Option.bind_eq_some_iff.mpr ⟨young, isYoung, ?_⟩
        refine Option.bind_eq_some_iff.mpr ⟨row, isRow, ?_⟩
        exact Option.bind_eq_some_iff.mpr ⟨_, eq, rfl⟩
      · exact reads.writes le rest rfl rfl (register_put ..)

end RowTs

end DBx1000.Timestamp
