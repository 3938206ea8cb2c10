import DBx1000.Timestamp.Ordering

/-!
# What the order promises, and what it does not

The order of reads and writes in `log`, with writes that are never put into their queue and with
writes that are. A write that has been put there is made only when a pre-write in front of it ends
and reads become ready with that; where none do, nobody looks at the queue again.

## Main results

- `history_ordered`: a read and a write follow each other in the order of their timestamps, and a
  read gets what the write before it has written.
- `waits_behind`: who waits, waits for a pre-write in front of it.
- `history_serial`: while no write waits, the writes are ordered, too.
- `row_blocked`: a write that waits with the oldest pre-write stays, unless an older one comes.
-/

namespace DBx1000.Timestamp

open Transition

variable {V τ : Type} [DecidableEq τ] {s s' : TsState V τ} {row : V} {t : τ}
  {r r' : RowTs V τ} {acts : List (Act V τ)} {l : Call V τ}

/-! ### What a call does -/

/-- What a call of a transaction does to the row, and the reads and writes that it makes. -/
inductive Accesses (t : τ) (x : TxnState) (r : RowTs V τ) :
    Call V τ → RowTs V τ → List (Act V τ) → Prop
  | refused (l : Call V τ) : Accesses t x r l r []
  | waits (behind : r.minPts < x.ts) : Accesses t x r (.read t) (r.bufferRead t x.ts) []
  | reads (le : (x.ts : WithTop Nat) ≤ r.minPts) : Accesses t x r (.read t)
      { r with rts := if r.rts < x.ts then x.ts else r.rts } [.read t x.ts r.row]
  | prewrites (le : r.wts ≤ x.ts) :
      Accesses t x r (.prewrite t) (r.bufferPrewrite t x.ts) []
  | buffers {v : V} (behind : r.minPts < x.ts ∨ r.minRts < x.ts) :
      Accesses t x r (.write t v) (r.bufferWrite t x.ts v) []
  | writes {v : V} {r' : RowTs V τ} {found : TsReqEntry V τ} {rest : List (TsReqEntry V τ)}
      {acts : List (Act V τ)} (more : x.pending ≠ 0) (le : (x.ts : WithTop Nat) ≤ r.minPts)
      (first : (x.ts : WithTop Nat) ≤ r.minRts)
      (isRest : debufferTxn t r.prereq = some (found, rest))
      (update : ({ r with prereq := rest }.put x.ts v).updateBuffer = some (r', acts)) :
      Accesses t x r (.write t v) r' (.write x.ts v :: acts)
  | rolls {r' : RowTs V τ} {found : TsReqEntry V τ} {rest : List (TsReqEntry V τ)}
      {acts : List (Act V τ)} (more : x.pending ≠ 0)
      (isRest : debufferTxn t r.prereq = some (found, rest))
      (update : RowTs.updateBuffer { r with prereq := rest } = some (r', acts)) :
      Accesses t x r (.rollback t) r' acts

theorem accesses_read {x : TxnState} {rc : RC}
    (eq : r.access t x.ts .R_REQ none = some (rc, r', acts)) :
    Accesses t x r (.read t) r' acts := by
  simp only [RowTs.access] at eq
  split at eq
  · cases eq
    exact .refused _
  split at eq
  · next behind =>
    cases eq
    exact .waits behind
  · next front =>
    cases eq
    exact .reads (not_lt.mp front)

theorem accesses_prewrite {x : TxnState} {rc : RC}
    (eq : r.access t x.ts .P_REQ none = some (rc, r', acts)) :
    Accesses t x r (.prewrite t) r' acts := by
  simp only [RowTs.access] at eq
  split at eq
  · cases eq
    exact .refused _
  split at eq
  · cases eq
    exact .refused _
  · next ge =>
    cases eq
    exact .prewrites (Nat.not_lt.mp ge)

theorem accesses_write {x : TxnState} {rc : RC} {v : V} (more : x.pending ≠ 0)
    (eq : r.access t x.ts .W_REQ (some v) = some (rc, r', acts)) :
    Accesses t x r (.write t v) r' acts := by
  simp only [RowTs.access, Option.bind_eq_bind, Option.bind_some, Option.pure_def] at eq
  split at eq
  · next behind =>
    cases eq
    exact .buffers (.inl behind)
  split at eq
  · next behind =>
    cases eq
    exact .buffers (.inr behind)
  · next front first =>
    obtain ⟨⟨found, rest⟩, isRest, eq⟩ := Option.bind_eq_some_iff.mp eq
    obtain ⟨⟨r₂, acts₂⟩, update, eq⟩ := Option.bind_eq_some_iff.mp eq
    cases eq
    exact .writes more (not_lt.mp front) (not_lt.mp first) isRest update

theorem accesses_rollback {x : TxnState} {rc : RC} (more : x.pending ≠ 0)
    (eq : r.access t x.ts .XP_REQ none = some (rc, r', acts)) :
    Accesses t x r (.rollback t) r' acts := by
  simp only [RowTs.access, Option.bind_eq_bind, Option.pure_def] at eq
  obtain ⟨⟨found, rest⟩, isRest, eq⟩ := Option.bind_eq_some_iff.mp eq
  obtain ⟨⟨r₂, acts₂⟩, update, eq⟩ := Option.bind_eq_some_iff.mp eq
  cases eq
  exact .rolls more isRest update

theorem access_eq {type : TsType} {v : Option V} {next : RC → TxnState → TxnState}
    (clean : (s.access t type v next).failed = false) : ∃ rc acts,
    s.row.access t (s.txn t).ts type v = some (rc, (s.access t type v next).row, acts) ∧
      (s.access t type v next).log = s.log ++ acts := by
  unfold TsState.access at clean ⊢
  cases eq : s.row.access t (s.txn t).ts type v with
  | none =>
    rw [eq] at clean
    cases clean
  | some found => exact ⟨found.1, found.2.2, rfl, rfl⟩

/-- A step that is not the beginning of a transaction is a call. -/
theorem tsStep_accesses (next : tsStep s l = some s') (clean : s'.failed = false) :
    (s'.row = s.row ∧ s'.log = s.log) ∨
    ∃ t acts, Accesses t (s.txn t) s.row l s'.row acts ∧ s'.log = s.log ++ acts := by
  unfold tsStep at next
  obtain ⟨-, next⟩ := Option.ite_none_left_eq_some.mp next
  cases l with
  | begin t ts =>
    obtain ⟨-, next⟩ := Option.ite_none_right_eq_some.mp next
    cases next
    exact .inl ⟨rfl, rfl⟩
  | read t =>
    obtain ⟨-, next⟩ := Option.ite_none_left_eq_some.mp next
    cases next
    obtain ⟨rc, acts, eq, log⟩ := access_eq clean
    exact .inr ⟨t, acts, accesses_read eq, log⟩
  | prewrite t =>
    obtain ⟨-, next⟩ := Option.ite_none_left_eq_some.mp next
    cases next
    obtain ⟨rc, acts, eq, log⟩ := access_eq clean
    exact .inr ⟨t, acts, accesses_prewrite eq, log⟩
  | write t v =>
    obtain ⟨ready, next⟩ := Option.ite_none_left_eq_some.mp next
    cases next
    obtain ⟨rc, acts, eq, log⟩ := access_eq clean
    exact .inr ⟨t, acts, accesses_write (fun none => ready (.inr none)) eq, log⟩
  | rollback t =>
    obtain ⟨ready, next⟩ := Option.ite_none_left_eq_some.mp next
    cases next
    obtain ⟨rc, acts, eq, log⟩ := access_eq clean
    exact .inr ⟨t, acts, accesses_rollback (fun none => ready (.inr none)) eq, log⟩

/-! ### Writes that do not wait -/

/-- A write is made at once, not put into its queue. -/
def Direct (s : TsState V τ) : Call V τ → Prop
  | .write t _ => ((s.txn t).ts : WithTop Nat) ≤ s.row.minPts ∧
    ((s.txn t).ts : WithTop Nat) ≤ s.row.minRts
  | _ => True

instance (s : TsState V τ) (l : Call V τ) : Decidable (Direct s l) := by
  cases l <;> unfold Direct <;> infer_instance

/-- What holds as long as no write waits. -/
structure TsState.Serial (s : TsState V τ) : Prop where
  none : s.row.writereq = []
  wts : (s.row.wts : WithTop Nat) ≤ s.row.minPts
  writes : s.log.Pairwise fun a b => a.isRead = false → b.isRead = false → a.ts ≤ b.ts

/-- Without writes in the queue the loop serves reads. -/
theorem RowTs.Settled.updateBuffer_reads (settled : r.Settled) (none : r.writereq = [])
    (eq : r.updateBuffer = some (r', acts)) : r'.writereq = [] ∧ r'.wts = r.wts ∧
      r.minPts ≤ r'.minPts ∧ ∀ a ∈ acts, a.isRead = true := by
  by_cases same : r.minPts = calMin r.prereq
  · rw [updateBuffer, updateLoop_same same] at eq
    cases eq
    exact ⟨none, rfl, le_rfl, fun a ha => absurd ha List.not_mem_nil⟩
  · rcases settled.turn r.writereq.length same with stops | ⟨more, -⟩
    · rw [updateBuffer, stops] at eq
      cases eq
      refine ⟨none, rfl, settled.minPts, fun a ha => ?_⟩
      obtain ⟨req, -, rfl⟩ := List.mem_map.mp ha
      rfl
    · refine absurd ?_ more
      unfold readyWrites
      rw [RowTs.afterReads, none]
      rfl

theorem TsState.Sound.write_le (h : s.Sound row) {a : Act V τ} (ha : a ∈ s.log)
    (isWrite : a.isRead = false) : a.ts ≤ s.row.wts := by
  have between := h.runs.grows.2.2 a ha
  simp only [isWrite, Bool.false_eq_true, if_false] at between
  exact between.2

namespace TsState.Serial

omit [DecidableEq τ] in
/-- Reads do not disturb the order of the writes. -/
theorem add_reads {log : List (Act V τ)}
    (writes : log.Pairwise fun a b => a.isRead = false → b.isRead = false → a.ts ≤ b.ts)
    (reads : ∀ a ∈ acts, a.isRead = true) :
    (log ++ acts).Pairwise fun a b => a.isRead = false → b.isRead = false → a.ts ≤ b.ts := by
  refine List.pairwise_append.mpr ⟨writes, List.pairwise_of_forall_mem_list ?_, ?_⟩
  · intro a ha b _ isWrite
    rw [reads a ha] at isWrite
    cases isWrite
  · intro a _ b hb _ isWrite
    rw [reads b hb] at isWrite
    cases isWrite

theorem step (serial : s.Serial) (h : s.Sound row) (direct : Direct s l)
    (next : tsStep s l = some s') : s'.Serial := by
  have clean := (h.step next).clean
  rcases tsStep_accesses next clean with ⟨same, log⟩ | ⟨t, acts, does, log⟩
  · exact ⟨same ▸ serial.none, same ▸ serial.wts, log ▸ serial.writes⟩
  suffices after : s'.row.writereq = [] ∧ (s'.row.wts : WithTop Nat) ≤ s'.row.minPts ∧
      s'.log.Pairwise fun a b => a.isRead = false → b.isRead = false → a.ts ≤ b.ts from
    ⟨after.1, after.2.1, after.2.2⟩
  rw [log]
  generalize s'.row = r' at does ⊢
  cases does with
  | refused =>
    rw [List.append_nil]
    exact ⟨serial.none, serial.wts, serial.writes⟩
  | waits =>
    rw [List.append_nil]
    exact ⟨serial.none, serial.wts, serial.writes⟩
  | reads =>
    refine ⟨serial.none, serial.wts, add_reads serial.writes fun a ha => ?_⟩
    rw [List.mem_singleton.mp ha]
    rfl
  | prewrites le =>
    rw [List.append_nil]
    refine ⟨serial.none, ?_, serial.writes⟩
    change _ ≤ if _ then _ else _
    split
    · exact WithTop.coe_le_coe.mpr le
    · exact serial.wts
  -- by the condition no write has to wait
  | buffers behind =>
    rcases behind with behind | behind
    · exact absurd direct.1 (not_le.mpr behind)
    · exact absurd direct.2 (not_le.mpr behind)
  | @writes v r' found rest acts more le first isRest update =>
    obtain ⟨found', rest', isRest', -, settled, -⟩ := h.debuffer more
    rw [isRest] at isRest'
    cases isRest'
    obtain ⟨none, wts, up, reads⟩ := (settled.put first v).updateBuffer_reads serial.none update
    -- the write is not older than the last one
    have later : s.row.wts ≤ (s.txn t).ts :=
      WithTop.coe_le_coe.mp (serial.wts.trans (h.minPts_le more))
    have isTs : r'.wts = (s.txn t).ts := by
      rw [wts]
      change (if _ then _ else _) = _
      split
      · rfl
      · next ge => exact Nat.le_antisymm later (Nat.not_lt.mp ge)
    refine ⟨none, isTs ▸ le.trans up, ?_⟩
    rw [← List.singleton_append, ← List.append_assoc]
    refine add_reads (List.pairwise_append.mpr ⟨serial.writes, ?_, ?_⟩) reads
    · exact List.pairwise_singleton ..
    · intro a ha b hb isWrite _
      rw [List.mem_singleton.mp hb]
      exact (h.write_le ha isWrite).trans later
  | @rolls r' found rest acts more isRest update =>
    obtain ⟨found', rest', isRest', -, settled, -⟩ := h.debuffer more
    rw [isRest] at isRest'
    cases isRest'
    obtain ⟨none, wts, up, reads⟩ := settled.updateBuffer_reads serial.none update
    refine ⟨none, ?_, add_reads serial.writes reads⟩
    rw [wts]
    exact serial.wts.trans up

theorem reachable (reached : (tsMachine V τ row).Reachable Direct s) : s.Serial := by
  refine (reached.invariant (I := fun s => s.Sound row ∧ s.Serial) ?_ ?_).2
  · rintro s rfl
    exact ⟨TsState.Sound.init row, rfl, le_top, List.Pairwise.nil⟩
  · rintro s l s' ⟨sound, serial⟩ direct next
    exact ⟨sound.step next, serial.step sound direct next⟩

end TsState.Serial

/-! ### The order of the reads and writes -/

/-- In every run no assertion fails, a read and a write of the row follow each other in the order of
their timestamps, and a read gets what the write before it has written. -/
theorem history_ordered (reached : (tsMachine V τ row).Reachable Free s) : s.failed = false ∧
    (s.log.Pairwise fun a b => a.isRead ≠ b.isRead → a.ts ≤ b.ts) ∧
    (∀ front t ts v back, s.log = front ++ .read t ts v :: back → v = rowAfter row front) ∧
    s.row.row = rowAfter row s.log := by
  have sound := TsState.Sound.reachable reached
  exact ⟨sound.clean, sound.runs.ordered, fun _ _ _ _ _ split => sound.runs.reads_last split,
    sound.runs.rowAfter_eq⟩

/-- A write behind a read and a pre-write, and a read of its value. -/
theorem history_ordered_two : ∃ s : TsState Nat Bool, s.log = [.write 1 10, .read true 2 10] ∧
    s.failed = false ∧ (s.log.Pairwise fun a b => a.isRead ≠ b.isRead → a.ts ≤ b.ts) ∧
    (∀ front t ts v back, s.log = front ++ .read t ts v :: back → v = rowAfter 0 front) ∧
    s.row.row = rowAfter 0 s.log := by
  obtain ⟨s, run, log⟩ := (tsMachine Nat Bool 0).exists_along Free
    ⟨.init Bool 0, fun _ => ⟨0, 0, false⟩, [], false⟩
    [.begin false 1, .begin true 2, .prewrite false, .read true, .write false 10] TsState.log
    [.write 1 10, .read true 2 10] (by decide)
  exact ⟨s, log, history_ordered (.along (.init rfl) run)⟩

/-- A transaction waits as long as a pre-write before it is not over. -/
theorem waits_behind (reached : (tsMachine V τ row).Reachable Free s)
    (waits : (s.txn t).waiting = true) : ∃ p ∈ s.row.prereq, p.ts < (s.txn t).ts := by
  have sound := TsState.Sound.reachable reached
  obtain ⟨req, hreq, rfl⟩ := (sound.waiters t).mp waits
  have behind := (sound.settled.reads req hreq).1
  have notNil : s.row.prereq ≠ [] := by
    intro nil
    rw [sound.minPts, nil] at behind
    exact not_top_lt behind
  obtain ⟨p, hp, least⟩ := exists_calMin notNil
  rw [sound.minPts, least, sound.stamps req hreq] at behind
  exact ⟨p, hp, WithTop.coe_lt_coe.mp behind⟩

theorem waits_behind_one : ∃ s : TsState Nat Bool, (s.txn true).waiting = true ∧
    ∃ p ∈ s.row.prereq, p.ts < (s.txn true).ts := by
  obtain ⟨s, run, waits⟩ := (tsMachine Nat Bool 0).exists_along Free
    ⟨.init Bool 0, fun _ => ⟨0, 0, false⟩, [], false⟩
    [.begin false 1, .begin true 2, .prewrite false, .read true]
    (fun s => (s.txn true).waiting) true (by decide)
  exact ⟨s, waits, waits_behind (.along (.init rfl) run) waits⟩

/-- While no write waits, the writes are made in the order of their timestamps, too. -/
theorem history_serial (reached : (tsMachine V τ row).Reachable Direct s) :
    s.log.Pairwise fun a b => a.isRead = false ∨ b.isRead = false → a.ts ≤ b.ts := by
  have free : (tsMachine V τ row).Reachable Free s := by
    obtain ⟨s₀, ls, start, run⟩ := reached
    exact ⟨s₀, ls, start, run.weaken fun _ _ _ => trivial⟩
  have ordered := (TsState.Sound.reachable free).runs.ordered
  refine (ordered.and (TsState.Serial.reachable reached).writes).imp ?_
  rintro a b ⟨ordered, writes⟩ one
  cases isRead : a.isRead <;> cases isRead' : b.isRead <;> simp_all

/-- A write that has waited is made before an older one, which undoes it. -/
theorem history_not_serial : ∃ s : TsState Nat Nat, (tsMachine Nat Nat 0).Reachable Free s ∧
    s.log = [.write 1 10, .read 1 2 10, .write 4 40, .write 3 30, .read 4 5 30] := by
  obtain ⟨s, run, log⟩ := (tsMachine Nat Nat 0).exists_along Free
    ⟨.init Nat 0, fun _ => ⟨0, 0, false⟩, [], false⟩
    [.begin 0 1, .begin 1 2, .begin 2 3, .begin 3 4, .begin 4 5, .prewrite 0, .prewrite 2,
      .prewrite 3, .read 1, .write 3 40, .write 0 10, .write 2 30, .read 4] TsState.log
    [.write 1 10, .read 1 2 10, .write 4 40, .write 3 30, .read 4 5 30] (by decide)
  exact ⟨s, .along (.init rfl) run, log⟩

theorem history_serial_two : ∃ s : TsState Nat Bool,
    s.log = [.write 1 10, .read true 2 10, .write 2 20] ∧
    s.log.Pairwise fun a b => a.isRead = false ∨ b.isRead = false → a.ts ≤ b.ts := by
  obtain ⟨s, run, log⟩ := (tsMachine Nat Bool 0).exists_along Direct
    ⟨.init Bool 0, fun _ => ⟨0, 0, false⟩, [], false⟩
    [.begin false 1, .begin true 2, .prewrite false, .read true, .write false 10, .prewrite true,
      .write true 20] TsState.log [.write 1 10, .read true 2 10, .write 2 20] (by decide)
  exact ⟨s, log, history_serial (.along (.init rfl) run)⟩

/-! ### A row that nobody can read any more -/

/-- The oldest pre-write is that of a write in the queue. -/
structure RowTs.Blocked (t : τ) (r : RowTs V τ) : Prop where
  buffered : entriesOf t r.writereq ≠ []
  oldest : ∃ p ∈ (entriesOf t r.prereq).getLast?, (p.ts : WithTop Nat) = r.minPts

/-- No pre-write is older than this. -/
def Younger (m : WithTop Nat) (s : TsState V τ) : Call V τ → Prop
  | .prewrite u => m ≤ (s.txn u).ts
  | _ => True

instance (m : WithTop Nat) (s : TsState V τ) (l : Call V τ) : Decidable (Younger m s l) := by
  cases l <;> unfold Younger <;> infer_instance

namespace RowTs.Blocked

/-- The pre-write of the write in the queue stays, and so does the least timestamp of the
pre-writes. -/
theorem debuffer (blocked : s.row.Blocked t) (h : s.Sound row) {u : τ}
    (more : (s.txn u).pending ≠ 0) {found : TsReqEntry V τ} {rest : List (TsReqEntry V τ)}
    (isRest : debufferTxn u s.row.prereq = some (found, rest)) :
    (∃ p ∈ (entriesOf t rest).getLast?, (p.ts : WithTop Nat) = s.row.minPts) ∧
      s.row.minPts = calMin rest := by
  have count := h.owned.count u
  have there : entriesOf u s.row.prereq ≠ [] := List.ne_nil_of_length_pos (by omega)
  obtain ⟨found', rest', isRest', sub, entries⟩ := debufferTxn_spec there
  rw [isRest] at isRest'
  cases isRest'
  -- the oldest pre-write of `t` stays, and it is the minimum
  obtain ⟨p, isLast, eq⟩ := blocked.oldest
  have still : p ∈ (entriesOf t rest).getLast? := by
    rw [entries]
    split
    · next same =>
      subst same
      -- a pre-write for the write in the queue, and one for the call
      have pos := List.length_pos_of_ne_nil blocked.buffered
      rw [List.getLast?_tail, if_neg (by omega)]
      exact isLast
    · exact isLast
  refine ⟨⟨p, still, eq⟩, le_antisymm (h.minPts ▸ calMin_anti sub) ?_⟩
  rw [← eq]
  exact calMin_le (List.mem_of_mem_filter (List.mem_of_mem_getLast? still))

/-- A call by which the oldest pre-write does not become older. -/
theorem step (blocked : s.row.Blocked t) (h : s.Sound row) (young : Younger s.row.minPts s l)
    (next : tsStep s l = some s') : s'.row.Blocked t ∧ s'.row.minPts = s.row.minPts ∧
      s.row.writereq ⊆ s'.row.writereq ∧ s.row.readreq ⊆ s'.row.readreq ∧
      ∃ acts, s'.log = s.log ++ acts ∧ ∀ a ∈ acts, (a.ts : WithTop Nat) ≤ s.row.minPts := by
  have none : ∀ a ∈ ([] : List (Act V τ)), (a.ts : WithTop Nat) ≤ s.row.minPts :=
    fun a ha => absurd ha List.not_mem_nil
  rcases tsStep_accesses next (h.step next).clean with ⟨same, log⟩ | ⟨u, acts, does, log⟩
  · rw [same, log]
    exact ⟨blocked, rfl, List.Subset.refl _, List.Subset.refl _, [], (List.append_nil _).symm, none⟩
  suffices after : s'.row.Blocked t ∧ s'.row.minPts = s.row.minPts ∧
      s.row.writereq ⊆ s'.row.writereq ∧ s.row.readreq ⊆ s'.row.readreq ∧
      ∀ a ∈ acts, (a.ts : WithTop Nat) ≤ s.row.minPts from
    ⟨after.1, after.2.1, after.2.2.1, after.2.2.2.1, acts, log, after.2.2.2.2⟩
  generalize s'.row = r' at does ⊢
  cases does with
  | refused => exact ⟨blocked, rfl, List.Subset.refl _, List.Subset.refl _, none⟩
  | waits =>
    exact ⟨⟨blocked.buffered, blocked.oldest⟩, rfl, List.Subset.refl _,
      List.subset_cons_self .., none⟩
  | reads le =>
    refine ⟨⟨blocked.buffered, blocked.oldest⟩, rfl, List.Subset.refl _, List.Subset.refl _, ?_⟩
    intro a ha
    rw [List.mem_singleton.mp ha]
    exact le
  -- a younger pre-write does not change the minimum
  | prewrites =>
    have same : (s.row.bufferPrewrite u (s.txn u).ts).minPts = s.row.minPts :=
      if_neg (not_lt.mpr young)
    refine ⟨⟨blocked.buffered, ?_⟩, same, List.Subset.refl _, List.Subset.refl _, none⟩
    obtain ⟨p, isLast, eq⟩ := blocked.oldest
    refine ⟨p, ?_, eq.trans same.symm⟩
    change p ∈ (entriesOf t (_ :: s.row.prereq)).getLast?
    unfold entriesOf
    rw [List.filter_cons]
    split
    · have notNil : entriesOf t s.row.prereq ≠ [] := by
        intro nil
        rw [nil] at isLast
        cases isLast
      exact (List.getLast?_cons_of_ne_nil notNil).symm ▸ isLast
    · exact isLast
  -- the write comes behind those that wait
  | buffers =>
    refine ⟨⟨?_, blocked.oldest⟩, rfl, List.subset_cons_self .., List.Subset.refl _, none⟩
    change entriesOf t (_ :: s.row.writereq) ≠ []
    unfold entriesOf
    rw [List.filter_cons]
    split
    · exact List.cons_ne_nil _ _
    · exact blocked.buffered
  -- the minimum is the same, so nothing that waits is looked at
  | writes more le first isRest update =>
    obtain ⟨oldest, same⟩ := blocked.debuffer h more isRest
    rw [updateBuffer, updateLoop_same same] at update
    cases update
    refine ⟨⟨blocked.buffered, oldest⟩, rfl, List.Subset.refl _, List.Subset.refl _, ?_⟩
    intro a ha
    rw [List.mem_singleton.mp ha]
    exact le
  | rolls more isRest update =>
    obtain ⟨oldest, same⟩ := blocked.debuffer h more isRest
    rw [updateBuffer, updateLoop_same same] at update
    cases update
    exact ⟨⟨blocked.buffered, oldest⟩, rfl, List.Subset.refl _, List.Subset.refl _, none⟩

end RowTs.Blocked

/-- Once the oldest pre-write is that of a write in the queue, and as long as no older one comes,
the row is only read and written up to its timestamp: the write stays in the queue, and a read
behind it waits. -/
theorem row_blocked {ls : List (Call V τ)} (reached : (tsMachine V τ row).Reachable Free s)
    (blocked : s.row.Blocked t)
    (run : (tsMachine V τ row).Along (Younger s.row.minPts) s ls s') :
    s.row.writereq ⊆ s'.row.writereq ∧ (∀ u, (s.txn u).waiting = true → (s'.txn u).waiting = true) ∧
      ∃ acts, s'.log = s.log ++ acts ∧ ∀ a ∈ acts, (a.ts : WithTop Nat) ≤ s.row.minPts := by
  have sound := TsState.Sound.reachable reached
  have kept : s'.Sound row ∧ s'.row.Blocked t ∧ s'.row.minPts = s.row.minPts ∧
      s.row.writereq ⊆ s'.row.writereq ∧ s.row.readreq ⊆ s'.row.readreq ∧
      ∃ acts, s'.log = s.log ++ acts ∧ ∀ a ∈ acts, (a.ts : WithTop Nat) ≤ s.row.minPts := by
    refine run.preserves (I := fun s' => s'.Sound row ∧ s'.row.Blocked t ∧
      s'.row.minPts = s.row.minPts ∧ s.row.writereq ⊆ s'.row.writereq ∧
      s.row.readreq ⊆ s'.row.readreq ∧
      ∃ acts, s'.log = s.log ++ acts ∧ ∀ a ∈ acts, (a.ts : WithTop Nat) ≤ s.row.minPts) ?_ ?_
    · rintro s₁ l s₂ ⟨sound, blocked, same, writes, reads, acts, log, before⟩ young next
      rw [← same] at young
      obtain ⟨blocked', same', writes', reads', acts', log', before'⟩ :=
        blocked.step sound young next
      refine ⟨sound.step next, blocked', same'.trans same, List.Subset.trans writes writes',
        List.Subset.trans reads reads', acts ++ acts', ?_, fun a ha => ?_⟩
      · rw [log', log, List.append_assoc]
      · rcases List.mem_append.mp ha with ha | ha
        · exact before a ha
        · exact same ▸ before' a ha
    · exact ⟨sound, blocked, rfl, List.Subset.refl _, List.Subset.refl _, [],
        (List.append_nil _).symm, fun a ha => absurd ha List.not_mem_nil⟩
  obtain ⟨sound', -, -, writes, reads, acts⟩ := kept
  refine ⟨writes, fun u waits => ?_, acts⟩
  -- the requests of the readers are still in the queue
  obtain ⟨req, hreq, txn⟩ := (sound.waiters u).mp waits
  exact (sound'.waiters u).mpr ⟨req, reads hreq, txn⟩

/-- A write of transaction 1 has been put into the queue, and transaction 2 reads the row. -/
theorem row_blocked_one : ∃ s s' : TsState Nat Nat, s.row.writereq ≠ [] ∧
    (s'.txn 2).waiting = true ∧ s.row.writereq ⊆ s'.row.writereq ∧
      (∀ u, (s.txn u).waiting = true → (s'.txn u).waiting = true) ∧
      ∃ acts, s'.log = s.log ++ acts ∧ ∀ a ∈ acts, (a.ts : WithTop Nat) ≤ s.row.minPts := by
  obtain ⟨s, run, view⟩ := (tsMachine Nat Nat 0).exists_along Free
    ⟨.init Nat 0, fun _ => ⟨0, 0, false⟩, [], false⟩
    [.begin 0 1, .begin 1 2, .prewrite 0, .prewrite 1, .write 1 20, .write 0 10]
    (fun s => (s.row.writereq, entriesOf 1 s.row.prereq, s.row.minPts,
      ((tsMachine Nat Nat 0).runIf (Younger s.row.minPts) s
        [.begin 2 3, .read 2, .begin 3 4, .prewrite 3, .write 3 40, .begin 1 5, .read 1]).map
        fun s' => (s'.txn 2).waiting))
    ([⟨1, some 20, 2⟩], [⟨1, none, 2⟩], ((2 : Nat) : WithTop Nat), some true) (by decide)
  obtain ⟨isWrite, view⟩ := Prod.mk.inj view
  obtain ⟨isPre, view⟩ := Prod.mk.inj view
  obtain ⟨isMin, more⟩ := Prod.mk.inj view
  obtain ⟨s', run', waits⟩ := Machine.exists_along _ _ _ _ _ _ more
  have reached := Machine.Reachable.along (.init rfl) run
  refine ⟨s, s', by simp [isWrite], waits, row_blocked (t := 1) reached ⟨?_, ?_⟩ run'⟩
  · rw [isWrite]
    decide
  · rw [isPre, isMin]
    exact ⟨_, rfl, rfl⟩

end DBx1000.Timestamp
