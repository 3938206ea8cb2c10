import DBx1000.Hocc64.Lock

/-!
# HOCC-64 is a hybrid lock

The state word is at every moment the packing of the number of completed write
sections, the number of threads in read sections, and one bit each for a writer and
for an evicting writer. Exclusion, draining and the two ways in which traversals
validate a version follow from that.

## Main result

`hocc_hybrid_lock`: with fewer than 2^14 threads and fewer than 2^48 write sections, every reachable
state has one writer at most and no reader beside a writer that has drained, the counters of the
word are exact, and the two validations mean what the traversals take them to mean.

## Proof strategy

`Inv` holds the word against the places of the threads. The steps are grouped by what they do to
the word: nothing, one reader more or less, a claim, the end of a section. The properties of runs
follow from `Effect`, which says what a step leaves of the word while a section lasts.
-/

namespace DBx1000.Hocc

open Transition

variable {n : Nat}

/-- What the operations keep true. -/
structure Inv (s : State n) : Prop where
  exclusive : ∀ t u, (s.pc t).owns = true → (s.pc u).owns = true → t = u
  drained : ∀ t, (s.pc t).drained = true → s.readers = 0
  expects : ∀ t v, (s.pc t).expects = some v → hasWriter v = false
  unlocks : ∀ t e v, s.pc t = .unlock e v → v = s.word
  packed : ∃ rt w, s.word = pack s.sections s.readers rt w ∧
    (w = true ↔ ∃ t, (s.pc t).owns = true) ∧ (rt = true ↔ ∃ t, (s.pc t).evicts = true)

section Word

variable {s : State n} (hn : n < 2 ^ 14) (few : s.sections < 2 ^ 48) (hi : Inv s)

include hn few hi

theorem Inv.version_eq : version s.word = s.sections := by
  obtain ⟨rt, w, hw, -, -⟩ := hi.packed
  rw [hw, version_pack rt w few (by have := s.readers_le; omega)]

theorem Inv.readerCount_eq : readerCount s.word = s.readers := by
  obtain ⟨rt, w, hw, -, -⟩ := hi.packed
  rw [hw, readerCount_pack rt w few (by have := s.readers_le; omega)]

theorem Inv.hasWriter_iff : hasWriter s.word = true ↔ ∃ t, (s.pc t).owns = true := by
  obtain ⟨rt, w, hw, how, -⟩ := hi.packed
  rw [hw, hasWriter_pack rt w few (by have := s.readers_le; omega), how]

theorem Inv.hasRetry_iff : hasRetry s.word = true ↔ ∃ t, (s.pc t).evicts = true := by
  obtain ⟨rt, w, hw, -, hev⟩ := hi.packed
  rw [hw, hasRetry_pack rt w few (by have := s.readers_le; omega), hev]

theorem Inv.hasReaders_eq : hasReaders s.word = decide (s.readers ≠ 0) := by
  obtain ⟨rt, w, hw, -, -⟩ := hi.packed
  rw [hw, hasReaders_pack rt w few (by have := s.readers_le; omega)]

/-- A CAS that finds the word it expects finds it without a writer. -/
theorem Inv.no_owner_of_expects {t : Fin n} (hx : (s.pc t).expects = some s.word) (u : Fin n) :
    (s.pc u).owns = false := by
  have free := hi.expects t _ hx
  by_contra h
  have := (hi.hasWriter_iff hn few).mpr ⟨u, by simpa using h⟩
  rw [free] at this
  cases this

omit hn few in
/-- Without an owner the word is the plain packing of version and readers. -/
theorem Inv.word_of_no_owner (free : ∀ u, (s.pc u).owns = false) :
    s.word = pack s.sections s.readers false false := by
  obtain ⟨rt, w, hw, how, hev⟩ := hi.packed
  have hw' : w = false := by
    by_contra h
    obtain ⟨u, hu⟩ := how.mp (by simpa using h)
    rw [free u] at hu
    cases hu
  have hrt : rt = false := by
    by_contra h
    obtain ⟨u, hu⟩ := hev.mp (by simpa using h)
    have := Pc.owns_of_evicts hu
    rw [free u] at this
    cases this
  rw [hw, hw', hrt]

end Word

theorem Inv.quiet {s : State n} {t : Fin n} {p : Pc} (hn : n < 2 ^ 14)
    (few : s.sections < 2 ^ 48) (hi : Inv s) (hr : p = .reading ↔ s.pc t = .reading)
    (ho : p.owns = (s.pc t).owns) (he : p.evicts = (s.pc t).evicts)
    (hd : p.drained = true → (s.pc t).drained = true ∨ hasReaders s.word = false)
    (hx : ∀ v, p.expects = some v → hasWriter v = false ∨ (s.pc t).expects = some v)
    (hu : ∀ e v, p = .unlock e v → v = s.word ∨ p = s.pc t) : Inv (s.goto t p) := by
  have readers : (s.goto t p).readers = s.readers := by
    have := readers_goto s t p
    simp only [hr] at this
    omega
  -- the lock has the same owner after the step
  have owner (u : Fin n) (h : ((s.goto t p).pc u).owns = true) : (s.pc u).owns = true := by
    rw [goto_pc] at h
    split at h
    next e => rw [e, ← ho]; exact h
    next => exact h
  obtain ⟨rt, w, hw, how, hev⟩ := hi.packed
  refine ⟨fun u u' h h' => hi.exclusive u u' (owner u h) (owner u' h'), ?_, ?_, ?_, rt, w, ?_,
    how.trans ?_, hev.trans ?_⟩
  · -- a writer that sees no readers in the word has drained them
    intro u h
    rw [readers]
    rw [goto_pc] at h
    split at h
    next e =>
      rcases hd h with hd | hd
      · exact hi.drained t hd
      · rw [hi.hasReaders_eq hn few] at hd
        simpa using hd
    next => exact hi.drained u h
  · -- a compare and swap is tried with a word without a writer
    intro u v h
    rw [goto_pc] at h
    split at h
    next e =>
      rcases hx v h with hx | hx
      · exact hx
      · exact hi.expects t v hx
    next => exact hi.expects u v h
  · -- an unlock stores to the word it has read
    intro u e v h
    rw [goto_pc] at h
    split at h
    next =>
      rcases hu e v h with hu | hu
      · exact hu
      · exact hi.unlocks t e v (hu.symm.trans h)
    next => exact hi.unlocks u e v h
  · rw [readers]; exact hw
  · exact (Family.exists_update_iff (fun q => Pc.owns q = true) (by rw [ho])).symm
  · exact (Family.exists_update_iff (fun q => Pc.evicts q = true) (by rw [he])).symm

/-- A state without owner whose word is the plain packing satisfies the invariant. -/
theorem Inv.unowned {s : State n} (free : ∀ u, (s.pc u).owns = false)
    (expects : ∀ u v, (s.pc u).expects = some v → hasWriter v = false)
    (word : s.word = pack s.sections s.readers false false) : Inv s := by
  refine ⟨?_, ?_, expects, ?_, false, false, word, ?_, ?_⟩
  · intro u u' h
    rw [free u] at h; cases h
  · intro u h
    have := Pc.owns_of_drained h
    rw [free u] at this; cases this
  · intro u e v h
    have := free u
    rw [h] at this
    cases this
  · exact ⟨nofun, fun ⟨u, h⟩ => by rw [free u] at h; cases h⟩
  · exact ⟨nofun, fun ⟨u, h⟩ => by
      have := Pc.owns_of_evicts h
      rw [free u] at this; cases this⟩

theorem Inv.enter {s : State n} {t : Fin n} (hn : n < 2 ^ 14) (few : s.sections < 2 ^ 48)
    (hi : Inv s) (hx : (s.pc t).expects = some s.word) (hr : s.pc t ≠ .reading) :
    Inv { s.goto t .reading with word := s.word + hoccReaderUnit } := by
  have free := hi.no_owner_of_expects hn few hx
  have readers : (s.goto t .reading).readers = s.readers + 1 := by
    have := readers_goto s t .reading
    simp only [hr, if_false, if_true] at this
    omega
  apply Inv.unowned
  · intro u
    change ((s.goto t .reading).pc u).owns = false
    rw [goto_pc]
    split
    next => rfl
    next => exact free u
  · intro u v h
    change ((s.goto t .reading).pc u).expects = some v at h
    rw [goto_pc] at h
    split at h
    next => cases h
    next => exact hi.expects u v h
  · change s.word + hoccReaderUnit = pack s.sections (s.goto t .reading).readers false false
    rw [readers, hi.word_of_no_owner free, pack_add_readerUnit]

theorem Inv.leave {s : State n} {t : Fin n} (hi : Inv s) (hr : s.pc t = .reading) :
    Inv { s.goto t .idle with word := s.word - hoccReaderUnit } := by
  have readers : s.readers = (s.goto t .idle).readers + 1 := by
    have := readers_goto s t .idle
    simp only [hr, if_true, reduceCtorEq, if_false] at this
    omega
  -- the leaving reader shows that no writer has drained
  have nobody (u : Fin n) (h : (s.pc u).drained = true) : False := by
    have := hi.drained u h
    omega
  -- only the leaving thread moves, and it becomes idle
  have other {P : Pc → Prop} {u : Fin n} (idle : ¬ P .idle) (h : P ((s.goto t .idle).pc u)) :
      P (s.pc u) := by
    rw [goto_pc] at h
    split at h
    next => exact absurd h idle
    next => exact h
  obtain ⟨rt, w, hw, how, hev⟩ := hi.packed
  refine ⟨?_, ?_, ?_, ?_, rt, w, ?_, how.trans ?_, hev.trans ?_⟩
  · intro u u' h h'
    exact hi.exclusive u u' (other (P := fun q => q.owns = true) (by decide) h)
      (other (P := fun q => q.owns = true) (by decide) h')
  · intro u h
    exact (nobody u (other (P := fun q => q.drained = true) (by decide) h)).elim
  · intro u v h
    exact hi.expects u v (other (P := fun q => q.expects = some v) (by simp [Pc.expects]) h)
  · intro u e v h
    have := other (P := fun q => q = .unlock e v) (by simp) h
    exact (nobody u (by rw [this]; rfl)).elim
  · -- one unit of the field of readers goes, and it was at least one
    change s.word - hoccReaderUnit = pack s.sections (s.goto t .idle).readers rt w
    rw [hw, readers, pack_sub_readerUnit]
  · exact (Family.exists_update_iff (fun q => Pc.owns q = true) (by simp [hr, Pc.owns])).symm
  · exact (Family.exists_update_iff (fun q => Pc.evicts q = true) (by simp [hr, Pc.evicts])).symm

theorem Inv.claim {s : State n} {t : Fin n} {e : Bool} (hn : n < 2 ^ 14)
    (few : s.sections < 2 ^ 48) (hi : Inv s) (hx : (s.pc t).expects = some s.word)
    (hr : s.pc t ≠ .reading) : Inv { s.goto t (.drain e) with word := claimed e s.word } := by
  -- the word that was expected has no writer
  have free := hi.no_owner_of_expects hn few hx
  have readers : (s.goto t (.drain e)).readers = s.readers := by
    have := readers_goto s t (.drain e)
    simp only [hr, reduceCtorEq, if_false] at this
    omega
  -- so the new owner is the only one
  have owner {u : Fin n} (h : ((s.goto t (.drain e)).pc u).owns = true) : u = t := by
    rw [goto_pc] at h
    split at h
    next eq => exact eq
    next => rw [free u] at h; cases h
  have self : (s.goto t (.drain e)).pc t = .drain e := by rw [goto_pc, if_pos rfl]
  refine ⟨fun u u' h h' => (owner h).trans (owner h').symm, ?_, ?_, ?_, e, true, ?_, ?_, ?_⟩
  · intro u (h : ((s.goto t (.drain e)).pc u).drained = true)
    obtain rfl := owner (Pc.owns_of_drained h)
    rw [self] at h; cases h
  · intro u v (h : ((s.goto t (.drain e)).pc u).expects = some v)
    rw [goto_pc] at h
    split at h
    next => cases h
    next => exact hi.expects u v h
  · intro u e' v (h : (s.goto t (.drain e)).pc u = .unlock e' v)
    obtain rfl := owner (u := u) (by rw [h]; rfl)
    rw [self] at h; cases h
  · change claimed e s.word = pack s.sections (s.goto t (.drain e)).readers e true
    have hb : s.readers < 2 ^ 14 := by have := s.readers_le; omega
    rw [readers, hi.word_of_no_owner free, claimed]
    -- with the retry bit set for an eviction
    cases e
    · exact pack_or_writerBit few hb
    · exact pack_or_writerBit_or_retryBit few hb
  · exact ⟨fun _ => ⟨t, congrArg Pc.owns self⟩, fun _ => rfl⟩
  · constructor
    · intro h
      exact ⟨t, (congrArg Pc.evicts self).trans h⟩
    · rintro ⟨u, h : ((s.goto t (.drain e)).pc u).evicts = true⟩
      obtain rfl := owner (Pc.owns_of_evicts h)
      rw [self] at h; exact h

theorem Inv.release {s : State n} {t : Fin n} {e : Bool} {v : Hocc64}
    (few : s.sections + 1 < 2 ^ 48) (hi : Inv s) (hp : s.pc t = .unlock e v) :
    Inv { s.goto t .idle with word := hoccUnlocked v, sections := s.sections + 1 } := by
  have none := hi.drained t (by rw [hp]; rfl)
  have readers : (s.goto t .idle).readers = 0 := by
    have := readers_goto s t .idle
    simp only [hp, reduceCtorEq, if_false] at this
    omega
  apply Inv.unowned
  · intro u
    change ((s.goto t .idle).pc u).owns = false
    rw [goto_pc]
    split
    next => rfl
    next ne =>
      by_contra h
      exact ne (hi.exclusive u t (by simpa using h) (by rw [hp]; rfl))
  · intro u v h
    change ((s.goto t .idle).pc u).expects = some v at h
    rw [goto_pc] at h
    split at h
    next => cases h
    next => exact hi.expects u v h
  · obtain ⟨rt, w, hw, -, -⟩ := hi.packed
    change hoccUnlocked v = pack (s.sections + 1) (s.goto t .idle).readers false false
    rw [readers, hi.unlocks t e v hp, hw, none, hoccUnlocked_pack rt w few]

theorem inv_initial : Inv (initial : State n) := by
  have empty : (initial : State n).readers = 0 := by simp [State.readers, initial]
  apply Inv.unowned
  · exact fun _ => rfl
  · intro u v h; cases h
  · rw [empty]
    exact hoccInit_eq

theorem Inv.effect {s s' : State n} {t : Fin n} (hn : n < 2 ^ 14) (few : s'.sections < 2 ^ 48)
    (hi : Inv s) (h : Effect s t s') : Inv s' := by
  cases h with
  | quiet p hr ho he hd hx hu => exact hi.quiet hn few hr ho he hd hx hu
  | enter hx hr ho => exact hi.enter hn few hx hr
  | leave hr => exact hi.leave hr
  | claim e hx hr ho => exact hi.claim hn few hx hr
  | release e v hp => exact hi.release few hp

/-! ### Runs -/

theorem Effect.sections_le {s s' : State n} {t : Fin n} (h : Effect s t s') :
    s.sections ≤ s'.sections := by
  cases h <;> simp [State.goto]

theorem sections_le {s s' : State n} {calls : List (Fin n × Call)}
    (path : (machine n).Along Free s calls s') : s.sections ≤ s'.sections :=
  path.relates (I := fun _ => True) (R := fun s s' => s.sections ≤ s'.sections)
    (fun _ => le_refl _) (fun _ _ _ => le_trans) (fun _ _ _ _ _ _ => trivial)
    (fun _ _ _ _ _ h => (step_effect h).sections_le) trivial

theorem Inv.along {s s' : State n} (hn : n < 2 ^ 14) {calls : List (Fin n × Call)}
    (path : (machine n).Along Free s calls s') (few : s'.sections < 2 ^ 48) (hi : Inv s) :
    Inv s' := by
  induction path with
  | nil => exact hi
  | cons _ next rest ih =>
    have := sections_le rest
    exact ih few (hi.effect hn (by omega) (step_effect next))

theorem inv_of_reachable {s : State n} (hn : n < 2 ^ 14) (reached : (machine n).Reachable Free s)
    (few : s.sections < 2 ^ 48) : Inv s := by
  obtain ⟨s₀, calls, rfl, path⟩ := reached
  exact inv_initial.along hn path few

/-- An owner gives the word up only by completing its write section. -/
theorem Effect.owner_stays {s s' : State n} {t u : Fin n} (h : Effect s u s') (owns : (s.pc t).owns = true) (same : s'.sections = s.sections) :
    (s'.pc t).owns = true := by
  by_cases e : t = u
  · subst e
    cases h with
    | quiet p hr ho => rw [goto_pc, if_pos rfl, ho]; exact owns
    | enter hx hr ho => rw [ho] at owns; cases owns
    | leave hr => rw [hr] at owns; cases owns
    | claim e hx hr ho => rw [ho] at owns; cases owns
    | release e v hp => simp at same
  · have kept (p : Pc) : ((s.goto u p).pc t).owns = true := by rw [goto_pc, if_neg e]; exact owns
    cases h <;> exact kept _

theorem owner_stays {s s' : State n} {calls : List (Fin n × Call)} {t : Fin n}
    (hn : n < 2 ^ 14) (path : (machine n).Along Free s calls s') (few : s'.sections < 2 ^ 48)
    (hi : Inv s) (owns : (s.pc t).owns = true) (same : s'.sections = s.sections) :
    (s'.pc t).owns = true := by
  induction path with
  | nil => exact owns
  | cons _ next rest ih =>
    have effect := step_effect next
    have := effect.sections_le
    have := sections_le rest
    exact ih few (hi.effect hn (by omega) effect) (effect.owner_stays owns (by omega))
      (by omega)

/-- The five properties of a state: one writer, no reader beside a writer that has
drained, an exact reader count, a retry bit only under an evicting owner, and an exact
version. -/
structure HybridLock (s : State n) : Prop where
  exclusive : ∀ t u, (s.pc t).owns = true → (s.pc u).owns = true → t = u
  separated : ∀ t u, s.pc t = .reading → (s.pc u).drained = false
  readers : readerCount s.word = s.readers
  retry : hasRetry s.word = true → ∃ t, (s.pc t).evicts = true
  version : version s.word = s.sections

theorem Inv.hybridLock {s : State n} (hn : n < 2 ^ 14) (few : s.sections < 2 ^ 48)
    (hi : Inv s) : HybridLock s where
  exclusive := hi.exclusive
  separated := by
    intro t u ht
    by_contra hu
    have none := hi.drained u (by simpa using hu)
    have member : t ∈ Finset.univ.filter fun v => s.pc v = .reading := by simp [ht]
    have := Finset.card_pos.mpr ⟨t, member⟩
    simp only [State.readers] at none
    omega
  readers := hi.readerCount_eq hn few
  retry := (hi.hasRetry_iff hn few).mp
  version := hi.version_eq hn few

/-- A successful validation of a word that was loaded without writer bit excludes every
write section that overlaps the interval. -/
theorem Inv.validated {s s' : State n} {calls : List (Fin n × Call)} (hn : n < 2 ^ 14)
    (path : (machine n).Along Free s calls s') (few : s'.sections < 2 ^ 48) (hi : Inv s)
    (free : hasWriter s.word = false) (valid : hoccValidate s'.word s.word = true)
    {as bs : List (Fin n × Call)} (split : calls = as ++ bs) {m : State n}
    (first : (machine n).Along Free s as m) (t : Fin n) : (m.pc t).owns = false := by
  subst split
  obtain ⟨m', first', second⟩ := path.split
  have same : m' = m := by
    have := first'.run_eq.symm.trans first.run_eq
    simpa using this
  subst same
  have h1 := sections_le first
  have h2 := sections_le second
  have hi' := hi.along hn path few
  obtain ⟨hver, hwr⟩ := (hoccValidate_iff _ _).mp valid
  rw [hi'.version_eq hn few, hi.version_eq hn (by omega)] at hver
  by_contra owns
  have mid := hi.along hn first (by omega)
  have last := owner_stays hn second few mid (by simpa using owns) (by omega)
  have := (hi'.hasWriter_iff hn few).mpr ⟨t, last⟩
  rw [hwr, free] at this
  cases this

/-- Validating the incremented word under the lock tells exactly whether the lock was
taken on the state that was loaded. -/
theorem Inv.validated_locked {s s' : State n} {calls : List (Fin n × Call)} (hn : n < 2 ^ 14)
    (path : (machine n).Along Free s calls s') (few : s'.sections < 2 ^ 48) (hi : Inv s)
    {t : Fin n} (owns : (s'.pc t).owns = true) :
    hoccValidate s'.word (s.word + hoccWriterBit) = true ↔
      hasWriter s.word = false ∧ s'.sections = s.sections := by
  have hle := sections_le path
  have few' : s.sections < 2 ^ 48 := by omega
  have hi' := hi.along hn path few
  have held : hasWriter s'.word = true := (hi'.hasWriter_iff hn few).mpr ⟨t, owns⟩
  rw [hoccValidate_iff, held, hi'.version_eq hn few]
  cases hw : hasWriter s.word with
  | true => simp [hasWriter_add_writerBit hw]
  | false =>
    have free (u : Fin n) : (s.pc u).owns = false := by
      by_contra h
      have := (hi.hasWriter_iff hn few').mpr ⟨u, by simpa using h⟩
      rw [hw] at this
      cases this
    have hb : s.readers < 2 ^ 14 := by have := s.readers_le; omega
    rw [hi.word_of_no_owner free, pack_add_writerBit,
      version_pack false true few' hb, hasWriter_pack false true few' hb]
    simp

/-- HOCC-64 is a hybrid lock: the properties of a state hold in every reachable state, a
plain validation over a run and a validation right after a write lock mean what the
traversals take them to mean. -/
theorem hocc_hybrid_lock {n : Nat} (hn : n < 2 ^ 14) {s s' : State n}
    {calls : List (Fin n × Call)} (reached : (machine n).Reachable Free s)
    (path : (machine n).Along Free s calls s') (few : s'.sections < 2 ^ 48) :
    HybridLock s ∧
      (hasWriter s.word = false → hoccValidate s'.word s.word = true →
        ∀ as bs m, calls = as ++ bs → (machine n).Along Free s as m →
          ∀ t, (m.pc t).owns = false) ∧
      (∀ t e, s'.pc t = .writing e →
        (hoccValidate s'.word (s.word + hoccWriterBit) = true ↔
          hasWriter s.word = false ∧ s'.sections = s.sections)) := by
  have few' : s.sections < 2 ^ 48 := by have := sections_le path; omega
  have hi := inv_of_reachable hn reached few'
  refine ⟨hi.hybridLock hn few', ?_, ?_⟩
  · intro free valid as bs m split first t
    exact hi.validated hn path few free valid split first t
  · intro t e ht
    exact hi.validated_locked hn path few (by rw [ht]; rfl)

/-- Two readers come in, the second one with `hocc_read_trylock`. -/
def twoReaders (r r' : Fin 4) : List (Fin 4 × Call) :=
  [(r, .readLock), (r', .readTrylock), (r, .next), (r, .next), (r', .next), (r', .next)]

/-- The writer `w` evicts them: it claims the lock, the `hocc_read_trylock` of `late` gives up, the
readers leave and the writer has waited for the last one. -/
def eviction (r r' w late : Fin 4) : List (Fin 4 × Call) :=
  [(w, .writeLockEvicting), (w, .next), (w, .next), (late, .readTrylock), (late, .next),
    (r, .readUnlock), (w, .next), (r', .readUnlock), (w, .next)]

/-- The validation right after the lock succeeds, as nobody has written, and that of the word before
it does not. -/
theorem hocc_hybrid_lock_evicting : ∃ s s' : State 4,
    (machine 4).Along Free initial (twoReaders 0 1) s ∧
      (machine 4).Along Free s (eviction 0 1 2 3) s' ∧
      readerCount s.word = 2 ∧ hoccValidate s'.word (s.word + hoccWriterBit) = true ∧
      hoccValidate s'.word s.word = false := by
  obtain ⟨t, run, ends⟩ := (machine 4).exists_along Free initial
    (twoReaders 0 1 ++ eviction 0 1 2 3)
    (fun s => (s.pc 2, s.sections)) (.writing true, 0) (by decide)
  obtain ⟨s, first, path⟩ := run.split
  obtain ⟨u, again, view⟩ := (machine 4).exists_along Free initial (twoReaders 0 1)
    (fun s => (s.readers, hasWriter s.word, s.sections)) (2, false, 0) (by decide)
  obtain rfl := first.unique again
  obtain ⟨writing, none⟩ := Prod.mk.inj ends
  obtain ⟨readers, view⟩ := Prod.mk.inj view
  obtain ⟨free, zero⟩ := Prod.mk.inj view
  obtain ⟨hybrid, excluded, alone⟩ :=
    hocc_hybrid_lock (by decide) ⟨_, _, rfl, first⟩ path (by rw [none]; decide)
  refine ⟨s, t, first, path, hybrid.readers.trans readers, ?_, ?_⟩
  · exact (alone 2 true writing).mpr ⟨free, none.trans zero.symm⟩
  · -- the writer is there at the end of the path
    by_contra valid
    have idle := excluded free (by simpa using valid) (eviction 0 1 2 3) [] t (by simp) path 2
    rw [writing] at idle
    cases idle

end DBx1000.Hocc
