import DBx1000.TicToc.Transaction

/-!
# What a TicToc transaction knows

A read is good for every timestamp in its lease: the value at that time in the serial
order of what has committed so far is the value read, and nobody who commits later writes
the row at such a time, because writers commit above the read timestamp that they find.
`Sound` says for every point of the validation what the transaction has made sure of, and
`Sound.shift` that the steps of other transactions do not touch it.
-/

namespace DBx1000.TicToc

open Transition SerialOrder

variable {ρ V τ : Type*}

/-! ### What one call of `try_renew` does -/

theorem wordWts_of_renewLoad {v wts rts : TsWord} (h : renewLoad v wts rts = .returns true) :
    wordWts v = wts := by
  unfold renewLoad at h
  split at h
  next hit => exact hit.1
  next =>
  split at h
  next => cases h
  next =>
  split at h
  next => cases h
  next same => exact (not_not.mp same).symm

/-- The loop is entered only on an unlocked word with the right write timestamp; it stores an
unlocked word whose write timestamp is not smaller. -/
theorem word_of_renewLoad {v wts rts : TsWord} {c : Pending} (le : wts ≤ rts)
    (small : rts.toNat < 2 ^ 48) (h : renewLoad v wts rts = .loops c) :
    c.v = v ∧ locked v = false ∧ locked c.v2 = false ∧
      (wordWts v).toNat ≤ (wordWts c.v2).toNat := by
  have le' : wts.toNat ≤ rts.toNat := le
  have hd := toNat_rebaseDelta (rts - wts)
  have hr := toNat_rebaseRest (rts - wts)
  have hs := toNat_sub_of_le le
  unfold renewLoad at h
  split at h
  next => cases h
  next =>
  split at h
  next => cases h
  next free =>
  split at h
  next => cases h
  next same =>
  split at h
  next => cases h
  next =>
  have hwts : wordWts v = wts := (not_not.mp same).symm
  split at h
  next long =>
    cases h
    have hsum : (wts + rebaseDelta (rts - wts)).toNat =
        wts.toNat + (rebaseDelta (rts - wts)).toNat := by
      rw [BitVec.toNat_add]
      exact Nat.mod_eq_of_lt (by omega)
    refine ⟨rfl, by simpa using free, locked_leaseWord (by omega) (by omega), ?_⟩
    change _ ≤ (wordWts (leaseWord _ _)).toNat
    rw [wordWts_leaseWord (by omega) (by omega), hwts, hsum]
    exact Nat.le_add_right _ _
  next short =>
    cases h
    have hshort : (rts - wts).toNat < 2 ^ 15 := by
      have := BitVec.not_le.mp short
      rwa [BitVec.lt_def, show (1#64 <<< rtsLen).toNat = 2 ^ 15 by decide] at this
    refine ⟨rfl, by simpa using free, locked_leaseWord (by omega) hshort, ?_⟩
    change _ ≤ (wordWts (leaseWord _ _)).toNat
    rw [wordWts_leaseWord (by omega) hshort, hwts]

/-- A call never shortens a lease and leaves a locked word alone; if it succeeds, the lease
reaches `rts`. -/
theorem tryRenew_spec {v wts rts : TsWord} (le : wts ≤ rts) (small : rts.toNat < 2 ^ 48) :
    readTs v ≤ readTs (tryRenew v wts rts).1 ∧
    (wordWts v).toNat ≤ (wordWts (tryRenew v wts rts).1).toNat ∧
    locked (tryRenew v wts rts).1 = locked v ∧
    (locked v = true → (tryRenew v wts rts).1 = v) ∧
    ((tryRenew v wts rts).2 = true →
      wordWts v = wts ∧ rts.toNat ≤ readTs (tryRenew v wts rts).1) := by
  have le' : wts.toNat ≤ rts.toNat := le
  have fits : wts.toNat + (rebaseDelta (rts - wts)).toNat < 2 ^ 48 := by
    rw [toNat_rebaseDelta, toNat_sub_of_le le]
    omega
  cases h : renewLoad v wts rts with
  | returns b =>
    have value : tryRenew v wts rts = (v, b) := by rw [tryRenew, h]
    rw [value]
    refine ⟨Nat.le_refl _, Nat.le_refl _, rfl, fun _ => rfl, fun hb => ?_⟩
    obtain rfl : b = true := hb
    exact ⟨wordWts_of_renewLoad h, renewLoad_true le h⟩
  | loops c =>
    have value : tryRenew v wts rts = (c.v2, true) := by rw [tryRenew, h]
    obtain ⟨sound, hwts, hrts⟩ := renewLoad_loops le (fun _ => fits) h
    obtain ⟨hv, free, free', wts_le⟩ := word_of_renewLoad le small h
    rw [value, ← hv]
    refine ⟨sound.readTs_le, hv ▸ wts_le, ?_, fun held => ?_, fun _ => ?_⟩
    · rw [hv, free, free']
    · rw [hv, free] at held
      cases held
    · exact ⟨sound.wts.trans hwts, by rw [sound.stored, hrts]⟩

/-! ### The computations before the first method call -/

theorem perm_sets (primaryKey : ρ → Nat) (accesses : List (Access ρ V)) :
    (readSet accesses ++ writeSet primaryKey accesses).Perm accesses := by
  refine (List.Perm.append_left _ (BubbleSort.perm_sort ..)).trans ?_
  refine List.perm_append_comm.trans ?_
  simpa [readSet] using List.filter_append_perm (fun a => decide (a.type = .WR)) accesses

/-- Each access pushes one of the two timestamps up, and none goes down. -/
theorem le_countAccess (ts : TsWord × TsWord) (a : Access ρ V) :
    ts.1 ≤ (countAccess ts a).1 ∧ ts.2 ≤ (countAccess ts a).2 ∧
    (a.type = .RD → a.wts ≤ (countAccess ts a).1) ∧
    (a.type = .WR → a.rts + 1 ≤ (countAccess ts a).2) := by
  unfold countAccess
  split
  · next h =>
    refine ⟨BitVec.le_of_lt h.2, BitVec.le_refl _, fun _ => BitVec.le_refl _, fun e => ?_⟩
    rw [e] at h
    cases h.1
  · split
    · next h =>
      refine ⟨BitVec.le_refl _, BitVec.le_of_lt h.2, fun e => ?_, fun _ => BitVec.le_refl _⟩
      rw [e] at h
      cases h.1
    · next hr hw =>
      refine ⟨BitVec.le_refl _, BitVec.le_refl _, fun e => ?_, fun e => ?_⟩
      · exact BitVec.not_lt.mp fun gt => hr ⟨e, gt⟩
      · exact BitVec.not_lt.mp fun gt => hw ⟨e, gt⟩

theorem le_foldl_countAccess (accesses : List (Access ρ V)) (ts : TsWord × TsWord) :
    ts.1 ≤ (accesses.foldl countAccess ts).1 ∧ ts.2 ≤ (accesses.foldl countAccess ts).2 ∧
    ∀ a ∈ accesses, (a.type = .RD → a.wts ≤ (accesses.foldl countAccess ts).1) ∧
      (a.type = .WR → a.rts + 1 ≤ (accesses.foldl countAccess ts).2) := by
  induction accesses generalizing ts with
  | nil => exact ⟨BitVec.le_refl _, BitVec.le_refl _, nofun⟩
  | cons b accesses ih =>
    obtain ⟨fst, snd, rd, wr⟩ := le_countAccess ts b
    obtain ⟨fst', snd', rest⟩ := ih (countAccess ts b)
    refine ⟨BitVec.le_trans fst fst', BitVec.le_trans snd snd', fun a ha => ?_⟩
    rcases List.mem_cons.mp ha with rfl | ha
    · exact ⟨fun e => BitVec.le_trans (rd e) fst', fun e => BitVec.le_trans (wr e) snd'⟩
    · exact rest a ha

/-- The commit timestamp is above the write timestamps of reads and the read timestamps of
writes. -/
theorem le_commitTs {accesses : List (Access ρ V)} {a : Access ρ V} (ha : a ∈ accesses) :
    (a.type = .RD → a.wts ≤ commitTs accesses) ∧
      (a.type = .WR → a.rts + 1 ≤ commitTs accesses) := by
  obtain ⟨rd, wr⟩ := (le_foldl_countAccess accesses (0, 0)).2.2 a ha
  unfold commitTs
  generalize accesses.foldl countAccess (0, 0) = ts at rd wr ⊢
  refine ⟨fun e => BitVec.le_trans (rd e) ?_, fun e => BitVec.le_trans (wr e) ?_⟩
  all_goals
    dsimp only
    split
    · next gt => first | exact BitVec.le_refl _ | exact BitVec.le_of_lt gt
    · next le => first | exact BitVec.le_refl _ | exact BitVec.not_lt.mp le

/-! ### What a transaction knows -/

section Facts

variable [DecidableEq ρ]

/-- The value of a row at a time, as far as transactions have committed. -/
def TxnState.at (s : TxnState ρ V τ) (init : ρ → V) (x : ρ) (c : Nat) : V :=
  valueAt init (serialOrder s.log) x c

variable (init : ρ → V) (s : TxnState ρ V τ)

/-- The value read is good from the write timestamp recorded up to `bound`, and will be. -/
def Known (a : Access ρ V) (bound : Nat) : Prop :=
  (∀ c, a.wts.toNat ≤ c → c ≤ bound → s.at init a.origRow c = a.read) ∧
    bound ≤ readTs (s.word a.origRow)

/-- What is known of an access from the beginning. -/
structure Fresh (a : Access ρ V) : Prop where
  lease : a.wts.toNat ≤ a.rts.toNat
  known : Known init s a a.rts.toNat

/-- A transaction in its validation. -/
structure Started (v : Validation ρ V) : Prop where
  rows : ((v.readSet ++ v.writeSet).map (·.origRow)).Nodup
  fresh : ∀ a ∈ v.readSet ++ v.writeSet, Fresh init s a
  above : ∀ a ∈ v.readSet, a.wts ≤ v.commitWts

/-- The locked row still has the version that the transaction read, -/
def Unchanged (a : Access ρ V) : Prop := wordWts (s.word a.origRow) = a.wts

/-- and the transaction commits after everything that has read this version. -/
def Raised (v : Validation ρ V) (a : Access ρ V) : Prop :=
  readTs (s.word a.origRow) < v.commitWts.toNat

/-- Committed and not written yet. -/
structure Owed (v : Validation ρ V) (a : Access ρ V) : Prop where
  small : v.commitWts.toNat < 2 ^ 48
  raised : Raised s v a
  value : ∀ c, v.commitWts.toNat ≤ c → s.at init a.origRow c = a.data

/-- The read set is good at the commit timestamp as far as it has been validated. -/
def Renewed (v : Validation ρ V) (a : Access ρ V) : Prop :=
  ∃ bound, v.commitWts.toNat ≤ bound ∧ Known init s a bound

def Sound : TxnPc ρ V → Prop
  | .idle => True
  | .running accesses => (accesses.map (·.origRow)).Nodup ∧ ∀ a ∈ accesses, Fresh init s a
  | .preWrite v _ | .preRead v _ => Started init s v
  | .lock v held rest => Started init s v ∧ v.writeSet = held ++ rest ∧ ∀ a ∈ held, Unchanged s a
  | .check v held a rest =>
    Started init s v ∧ v.writeSet = held ++ a :: rest ∧ ∀ a ∈ held, Unchanged s a
  | .backOff v rest => Started init s v ∧ (rest.map (·.origRow)).Nodup
  | .getRts v rest => Started init s v ∧ (∀ a ∈ v.writeSet, Unchanged s a) ∧
      ∃ done, v.writeSet = done ++ rest ∧ ∀ a ∈ done, Raised s v a
  | .raise v a rest => Started init s v ∧ (∀ a ∈ v.writeSet, Unchanged s a) ∧
      (∃ done, v.writeSet = done ++ a :: rest ∧ ∀ a ∈ done, Raised s v a) ∧
      v.commitWts.toNat ≤ readTs (s.word a.origRow) + 1
  | .renew v rest => Started init s v ∧ (∀ a ∈ v.writeSet, Unchanged s a ∧ Raised s v a) ∧
      ∃ done, v.readSet = done ++ rest ∧ ∀ a ∈ done, Renewed init s v a
  | .commit v => Started init s v ∧ (∀ a ∈ v.writeSet, Unchanged s a ∧ Raised s v a) ∧
      ∀ a ∈ v.readSet, Renewed init s v a
  | .write v rest => (rest.map (·.origRow)).Nodup ∧ ∀ a ∈ rest, Owed init s v a
  | .release v a rest => ((a :: rest).map (·.origRow)).Nodup ∧ ∀ a ∈ rest, Owed init s v a
  | .abort rest => (rest.map (·.origRow)).Nodup

end Facts

/-- The rows that a transaction has locked. -/
def TxnPc.held : TxnPc ρ V → List ρ
  | .lock _ held _ => held.map (·.origRow)
  | .check _ held a _ => held.map (·.origRow) ++ [a.origRow]
  | .getRts v _ | .raise v _ _ | .renew v _ | .commit v => v.writeSet.map (·.origRow)
  | .release _ a rest => a.origRow :: rest.map (·.origRow)
  | .backOff _ rest | .write _ rest | .abort rest => rest.map (·.origRow)
  | _ => []

/-- The rows that a committed transaction has yet to write, with its timestamp. -/
def TxnPc.pending : TxnPc ρ V → List (ρ × Nat)
  | .write v rest | .release v _ rest => rest.map fun a => (a.origRow, v.commitWts.toNat)
  | _ => []

theorem TxnPc.mem_held_of_pending {p : TxnPc ρ V} {x : ρ} {c : Nat} (h : (x, c) ∈ p.pending) :
    x ∈ p.held := by
  cases p with
  | write v rest =>
    obtain ⟨a, ha, e⟩ := List.mem_map.mp h
    cases e
    exact List.mem_map.mpr ⟨a, ha, rfl⟩
  | release v b rest =>
    obtain ⟨a, ha, e⟩ := List.mem_map.mp h
    cases e
    exact List.mem_cons_of_mem _ (List.mem_map.mpr ⟨a, ha, rfl⟩)
  | _ => cases h

/-! ### What stays true while others take steps -/

section Shifts

variable [DecidableEq ρ] {init : ρ → V} {s s' : TxnState ρ V τ} {v : Validation ρ V}
  {a : Access ρ V}

/-- The change of the words and the log, for a transaction that has locked the rows `own`. -/
structure Shift (init : ρ → V) (s s' : TxnState ρ V τ) (own : ρ → Prop) : Prop where
  grows : ∀ x, readTs (s.word x) ≤ readTs (s'.word x)
  past : ∀ x c, c ≤ readTs (s.word x) → s'.at init x c = s.at init x c
  wts : ∀ x, own x → wordWts (s'.word x) = wordWts (s.word x)
  rts : ∀ x, own x → readTs (s'.word x) = readTs (s.word x)
  value : ∀ x, own x → ∀ c, s'.at init x c = s.at init x c

variable {own : ρ → Prop}

theorem Shift.of_log {s s' : TxnState ρ V τ} (log : s'.log = s.log)
    (grows : ∀ x, readTs (s.word x) ≤ readTs (s'.word x))
    (wts : ∀ x, own x → wordWts (s'.word x) = wordWts (s.word x))
    (rts : ∀ x, own x → readTs (s'.word x) = readTs (s.word x)) : Shift init s s' own where
  grows := grows
  past x c _ := by rw [TxnState.at, log]; rfl
  wts := wts
  rts := rts
  value x _ c := by rw [TxnState.at, log]; rfl

theorem Known.shift {bound : Nat} (h : Known init s a bound) (shift : Shift init s s' own) :
    Known init s' a bound := by
  refine ⟨fun c lo hi => ?_, Nat.le_trans h.2 (shift.grows _)⟩
  rw [shift.past _ _ (Nat.le_trans hi h.2)]
  exact h.1 c lo hi

theorem Fresh.shift (h : Fresh init s a) (shift : Shift init s s' own) : Fresh init s' a :=
  ⟨h.lease, h.known.shift shift⟩

theorem Started.shift (h : Started init s v) (shift : Shift init s s' own) : Started init s' v :=
  ⟨h.rows, fun a ha => (h.fresh a ha).shift shift, h.above⟩

theorem Unchanged.shift (h : Unchanged s a) (shift : Shift init s s' own) (ha : own a.origRow) :
    Unchanged s' a :=
  (shift.wts _ ha).trans h

theorem Raised.shift (h : Raised s v a) (shift : Shift init s s' own) (ha : own a.origRow) :
    Raised s' v a := by
  rw [Raised, shift.rts _ ha]
  exact h

theorem Owed.shift (h : Owed init s v a) (shift : Shift init s s' own) (ha : own a.origRow) :
    Owed init s' v a := by
  refine ⟨h.small, h.raised.shift shift ha, fun c le => ?_⟩
  rw [shift.value _ ha]
  exact h.value c le

theorem Renewed.shift (h : Renewed init s v a) (shift : Shift init s s' own) :
    Renewed init s' v a := by
  obtain ⟨bound, le, known⟩ := h
  exact ⟨bound, le, known.shift shift⟩

theorem Sound.shift {p : TxnPc ρ V} (h : Sound init s p) (shift : Shift init s s' (· ∈ p.held)) :
    Sound init s' p := by
  have mem {l : List (Access ρ V)} {a : Access ρ V} (ha : a ∈ l) : a.origRow ∈ l.map (·.origRow) :=
    List.mem_map.mpr ⟨a, ha, rfl⟩
  cases p with
  | idle => trivial
  | running accesses => exact ⟨h.1, fun a ha => (h.2 a ha).shift shift⟩
  | preWrite v rest => exact Started.shift h shift
  | preRead v rest => exact Started.shift h shift
  | lock v held rest =>
    exact ⟨h.1.shift shift, h.2.1, fun a ha => (h.2.2 a ha).shift shift (mem ha)⟩
  | check v held b rest =>
    exact ⟨h.1.shift shift, h.2.1, fun a ha => (h.2.2 a ha).shift shift
      (List.mem_append_left _ (mem ha))⟩
  | backOff v rest => exact ⟨h.1.shift shift, h.2⟩
  | getRts v rest =>
    obtain ⟨started, same, done, e, raised⟩ := h
    refine ⟨started.shift shift, fun a ha => (same a ha).shift shift (mem ha), done, e, ?_⟩
    exact fun a ha => (raised a ha).shift shift (mem (e ▸ List.mem_append_left _ ha))
  | raise v b rest =>
    obtain ⟨started, same, ⟨done, e, raised⟩, le⟩ := h
    refine ⟨started.shift shift, fun a ha => (same a ha).shift shift (mem ha), ⟨done, e, ?_⟩, ?_⟩
    · exact fun a ha => (raised a ha).shift shift (mem (e ▸ List.mem_append_left _ ha))
    · exact Nat.le_trans le (Nat.add_le_add_right (shift.grows _) 1)
  | renew v rest =>
    obtain ⟨started, same, done, e, renewed⟩ := h
    refine ⟨started.shift shift, fun a ha => ?_, done, e, fun a ha => (renewed a ha).shift shift⟩
    exact ⟨(same a ha).1.shift shift (mem ha), (same a ha).2.shift shift (mem ha)⟩
  | commit v =>
    obtain ⟨started, same, renewed⟩ := h
    refine ⟨started.shift shift, fun a ha => ?_, fun a ha => (renewed a ha).shift shift⟩
    exact ⟨(same a ha).1.shift shift (mem ha), (same a ha).2.shift shift (mem ha)⟩
  | write v rest => exact ⟨h.1, fun a ha => (h.2 a ha).shift shift (mem ha)⟩
  | release v b rest =>
    exact ⟨h.1, fun a ha => (h.2 a ha).shift shift (List.mem_cons_of_mem _ (mem ha))⟩
  | abort rest => exact h

theorem Shift.mono {own' : ρ → Prop} (h : Shift init s s' own) (sub : ∀ x, own' x → own x) :
    Shift init s s' own' :=
  ⟨h.grows, h.past, fun x hx => h.wts x (sub x hx), fun x hx => h.rts x (sub x hx),
    fun x hx => h.value x (sub x hx)⟩

end Shifts

end DBx1000.TicToc
