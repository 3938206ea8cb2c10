import DBx1000.Silo.Knowledge

/-!
# Silo transactions are serializable

The moments at which committed transactions had all their locks put them into a serial
order. A validated read is the value at that moment: a transaction that wrote the row at a
later place would have raised the tid, and one that holds the lock makes validation fail.

## Main result

`silo_serializable`: in every interleaving of the loads, stores and compare-and-swaps of any number
of threads, the committed transactions replay in some order, no write is lost and no copy is torn,
the tid of a row grows with every write, and no assertion fails.

## Proof strategy

`SiloInv` has what each thread knows at the point where it is, as `Silo.Knowledge` puts it. A step
of a thread is taken apart by that point, with one lemma for each; what the others know is kept
because the step respects the rows that they hold.
-/

namespace DBx1000.Silo

open Transition SerialOrder

variable {ρ V τ : Type*} [DecidableEq ρ] {init : ρ → V} {s s' : SiloState ρ V τ} {t : τ}
  {p : SiloPc ρ V} {a : Access ρ V}

structure SiloInv (init : ρ → V) (s : SiloState ρ V τ) : Prop where
  locks : ∀ x, (s.word x).lock = true ↔ ∃ t, x ∈ (s.pc t).held
  alone : ∀ t u x, x ∈ (s.pc t).held → x ∈ (s.pc u).held → t = u
  sound : ∀ t, SiloSound init s t (s.pc t)
  /-- A row without a write to be done has the value that the log gives it. -/
  current : ∀ x, (∀ t, ∀ a ∈ (s.pc t).owed, a.origRow ≠ x) →
    after init (serialOrder s.log) x = s.data x
  past : ∀ e ∈ s.log, e.time < s.now
  /-- Who has read a row that a validating transaction writes has an earlier place. -/
  covered : ∀ e ∈ s.log, ∀ r ∈ e.reads, ∀ u n, (s.pc u).stamp = some n → r.1 ∈ (s.pc u).held →
    e.time < n
  writes : ∀ e ∈ s.log, ∀ x, e.writesTo x → ∃ r ∈ e.reads, r.1 = x
  replays : Replays init (serialOrder s.log)
  passes : s.failed = false

namespace SiloInv

/-- Nobody owes a write to a row that is not locked. -/
theorem not_owed_of_free (inv : SiloInv init s) {x : ρ} (free : (s.word x).lock = false) {u : τ}
    {b : Access ρ V} (hb : b ∈ (s.pc u).owed ++ (s.pc u).dirty) : b.origRow ≠ x := by
  intro same
  have : (s.word x).lock = true := by
    rw [inv.locks]
    exact ⟨u, same ▸ SiloPc.mem_held_of_owed hb⟩
  rw [free] at this
  cases this

/-- Nobody owes a write to a row that a transaction before its commit holds. -/
theorem not_owed_of_held (inv : SiloInv init s) {x : ρ} (held : x ∈ (s.pc t).held)
    (none : (s.pc t).owed ++ (s.pc t).dirty = []) {u : τ} {b : Access ρ V}
    (hb : b ∈ (s.pc u).owed ++ (s.pc u).dirty) : b.origRow ≠ x := by
  intro same
  have := inv.alone u t x (same ▸ SiloPc.mem_held_of_owed hb) held
  rw [this, none] at hb
  cases hb

/-- An access whose tid is still that of the row reads the value at the place of its
transaction. -/
theorem known (inv : SiloInv init s) {stamp : Nat} (fresh : Fresh s a.origRow a.tid a.read)
    (behind : Behind s stamp a) (tid : (s.word a.origRow).tid = a.tid)
    (quiet : ∀ u, ∀ b ∈ (s.pc u).owed ++ (s.pc u).dirty, b.origRow ≠ a.origRow) :
    valueAt init (serialOrder s.log) a.origRow stamp = a.read := by
  have last : ∀ e ∈ serialOrder s.log, stamp < e.time → ¬ e.writesTo a.origRow := by
    intro e he later writes
    rcases behind e (mem_serialOrder.mp he) writes later with ⟨u, b, hb, same⟩ | lt
    · exact quiet u b hb same
    · omega
  have data : s.data a.origRow = a.read :=
    fresh.same tid fun u b hb => quiet u b (List.mem_append_right _ hb)
  rw [valueAt_eq_after (sorted_serialOrder _) last, ← data]
  exact inv.current _ fun u b hb => quiet u b (List.mem_append_left _ hb)

variable [DecidableEq τ]

/-! ### Moves -/

/-- A move of one thread that keeps its writes and all tids; it may lock or unlock rows. -/
theorem move (inv : SiloInv init s) (word : ρ → TidWord)
    (tids : ∀ x, (word x).tid = (s.word x).tid)
    (locks : ∀ x, (word x).lock = true ↔ ∃ u, x ∈ (Function.update s.pc t p u).held)
    (alone : ∀ u w x, x ∈ (Function.update s.pc t p u).held →
      x ∈ (Function.update s.pc t p w).held → u = w)
    (owed : p.owed = (s.pc t).owed) (dirty : p.dirty = (s.pc t).dirty)
    (stamp : ∀ n x, p.stamp = some n → x ∈ p.held → (s.pc t).stamp = some n ∧ x ∈ (s.pc t).held)
    (sound : SiloSound init s t p) :
    SiloInv init { s with word := word, pc := Function.update s.pc t p } := by
  have owed' (u : τ) : (Function.update s.pc t p u).owed = (s.pc u).owed := by
    rw [Function.update_apply]
    split
    · next e => rw [e, owed]
    · rfl
  have dirty' (u : τ) : (Function.update s.pc t p u).dirty = (s.pc u).dirty := by
    rw [Function.update_apply]
    split
    · next e => rw [e, dirty]
    · rfl
  have stamp' (u : τ) (n : Nat) (x : ρ) (is : (Function.update s.pc t p u).stamp = some n)
      (held : x ∈ (Function.update s.pc t p u).held) :
      (s.pc u).stamp = some n ∧ x ∈ (s.pc u).held := by
    rw [Function.update_apply] at is held
    split at is
    · next e =>
      rw [if_pos e] at held
      rw [e]
      exact stamp n x is held
    · next ne =>
      rw [if_neg ne] at held
      exact ⟨is, held⟩
  -- what each thread knows survives: tids and data are the same, and so is what is owed
  have respects (u : τ) (held : List ρ) :
      Respects init u held s { s with word := word, pc := Function.update s.pc t p } := by
    constructor
    case fresh =>
      intro x tid data fresh
      constructor
      · rw [tids]
        exact fresh.le
      · intro is clean
        rw [tids] at is
        exact fresh.same is fun w b hb => clean w b (by rw [dirty']; exact hb)
    case now => exact Nat.le_refl _
    case behind =>
      intro n b _ _ behind e he writes later
      rw [tids]
      rcases behind e he writes later with ⟨w, c, hc, same⟩ | lt
      · exact .inl ⟨w, c, by rw [owed', dirty']; exact hc, same⟩
      · exact .inr lt
    case validated =>
      intro n m b _ valid
      refine ⟨valid.known, fun w k is held => ?_, valid.max⟩
      obtain ⟨is, held⟩ := stamp' w k _ is held
      exact valid.apart w k is held
    case tids => exact fun x _ => tids x
    case values => exact fun x _ => rfl
  constructor
  case locks => exact locks
  case alone => exact alone
  case sound =>
    intro u
    change SiloSound init _ u (Function.update s.pc t p u)
    rw [Function.update_apply]
    split
    · next e =>
      rw [e]
      exact sound.shift (respects t _)
    · exact (inv.sound u).shift (respects u _)
  case current =>
    intro x none
    exact inv.current x fun u b hb => none u b (by rw [owed']; exact hb)
  case past => exact inv.past
  case covered =>
    intro e he r hr u n is held
    obtain ⟨is, held⟩ := stamp' u n _ is held
    exact inv.covered e he r hr u n is held
  case writes => exact inv.writes
  case replays => exact inv.replays
  case passes => exact inv.passes

/-- A move of one thread that keeps its locks. -/
theorem goto (inv : SiloInv init s) {q : SiloPc ρ V} (pc : s.pc t = q) (held : p.held = q.held)
    (owed : p.owed = q.owed) (dirty : p.dirty = q.dirty)
    (stamp : p.stamp = none ∨ p.stamp = q.stamp) (sound : SiloSound init s t p) :
    SiloInv init (s.goto t p) := by
  subst pc
  have held' (u : τ) : (Function.update s.pc t p u).held = (s.pc u).held := by
    rw [Function.update_apply]
    split
    · next e => rw [e, held]
    · rfl
  refine inv.move s.word (fun _ => rfl) (fun x => ?_) (fun u w x hu hw => ?_) owed dirty
    (fun n x is mem => ?_) sound
  · simp only [held']
    exact inv.locks x
  · rw [held'] at hu hw
    exact inv.alone u w x hu hw
  · rw [held] at mem
    rcases stamp with stamp | stamp
    · rw [stamp] at is
      cases is
    · rw [stamp] at is
      exact ⟨is, mem⟩

/-- The thread locks a row. -/
theorem acquire (inv : SiloInv init s) {q : SiloPc ρ V} (pc : s.pc t = q) {x : ρ}
    (free : (s.word x).lock = false) (held : ∀ y, y ∈ p.held ↔ y = x ∨ y ∈ q.held)
    (owed : p.owed = q.owed) (dirty : p.dirty = q.dirty) (stamp : p.stamp = none)
    (sound : SiloSound init s t p) :
    SiloInv init ((s.setWord x { s.word x with lock := true }).goto t p) := by
  subst pc
  have unheld (u : τ) : x ∉ (s.pc u).held := by
    intro mem
    have := (inv.locks x).mpr ⟨u, mem⟩
    rw [free] at this
    cases this
  have held' (u : τ) (y : ρ) :
      y ∈ (Function.update s.pc t p u).held ↔ u = t ∧ y = x ∨ y ∈ (s.pc u).held := by
    rw [Function.update_apply]
    split
    · next e => rw [held, e]; simp
    · next ne => simp [ne]
  refine inv.move _ (fun y => ?_) (fun y => ?_) (fun u w y hu hw => ?_) owed dirty
    (fun n y is => ?_) sound
  · change (Function.update s.word x _ y).tid = _
    rw [Function.update_apply]
    split
    · next e => rw [e]
    · rfl
  · change (Function.update s.word x _ y).lock = true ↔ _
    rw [Function.update_apply]
    simp only [held']
    split
    · next e => exact iff_of_true rfl ⟨t, .inl ⟨rfl, e⟩⟩
    · next ne => simp [ne, inv.locks]
  · rw [held'] at hu hw
    -- the row was free, so nobody but `t` holds it
    rcases hu with ⟨rfl, rfl⟩ | hu
    · rcases hw with ⟨rfl, -⟩ | hw
      · rfl
      · exact absurd hw (unheld w)
    · rcases hw with ⟨rfl, rfl⟩ | hw
      · exact absurd hu (unheld u)
      · exact inv.alone u w y hu hw
  · rw [stamp] at is
    cases is

/-- The thread unlocks a row. -/
theorem free (inv : SiloInv init s) {q : SiloPc ρ V} (pc : s.pc t = q) {x : ρ} {w : TidWord}
    (word : w = ⟨(s.word x).tid, false⟩) (fresh : x ∉ p.held)
    (held : ∀ y, y ∈ q.held ↔ y = x ∨ y ∈ p.held) (owed : p.owed = q.owed)
    (dirty : p.dirty = q.dirty) (stamp : p.stamp = none) (sound : SiloSound init s t p) :
    SiloInv init ((s.setWord x w).goto t p) := by
  subst pc
  have mine : x ∈ (s.pc t).held := (held x).mpr (.inl rfl)
  have held' (u : τ) (y : ρ) :
      y ∈ (Function.update s.pc t p u).held ↔ y ≠ x ∧ y ∈ (s.pc u).held := by
    rw [Function.update_apply]
    split
    · next e =>
      rw [e, held]
      constructor
      · intro mem
        refine ⟨fun is => fresh (is ▸ mem), .inr mem⟩
      · rintro ⟨ne, is | mem⟩
        · exact absurd is ne
        · exact mem
    · next ne =>
      refine ⟨fun mem => ⟨fun is => ne ?_, mem⟩, fun h => h.2⟩
      exact inv.alone u t x (is ▸ mem) mine
  refine inv.move _ (fun y => ?_) (fun y => ?_) (fun u v y hu hv => ?_) owed dirty
    (fun n y is => ?_) sound
  · change (Function.update s.word x _ y).tid = _
    rw [Function.update_apply]
    split
    · next e => rw [e, word]
    · rfl
  · change (Function.update s.word x _ y).lock = true ↔ _
    rw [Function.update_apply]
    simp only [held']
    split
    · next e =>
      rw [word]
      -- the row is free, and the only one who held it has given it up
      refine iff_of_false nofun ?_
      rintro ⟨u, ne, -⟩
      exact ne e
    · next ne => simp [ne, inv.locks]
  · rw [held'] at hu hv
    exact inv.alone u v y hu.2 hv.2
  · rw [stamp] at is
    cases is

/-! ### The moment of all locks and the commit -/

theorem stamp (inv : SiloInv init s) {v : Validation ρ V} {held : List (Access ρ V)}
    (pc : s.pc t = .lock v held []) : SiloInv init (s.stamp t v) := by
  have sound := inv.sound t
  rw [pc] at sound
  obtain ⟨started, split⟩ := sound
  rw [List.append_nil] at split
  have others (u : τ) (ne : u ≠ t) : (s.stamp t v).pc u = s.pc u := Function.update_of_ne ne ..
  have self : (s.stamp t v).pc t = .readValidate v s.now v.readSet 0 := Function.update_self ..
  have held' (u : τ) : ((s.stamp t v).pc u).held = (s.pc u).held := by
    by_cases same : u = t
    · rw [same, self, pc]
      exact congrArg (List.map _) split
    · rw [others u same]
  have writes (u : τ) : ((s.stamp t v).pc u).owed = (s.pc u).owed ∧
      ((s.stamp t v).pc u).dirty = (s.pc u).dirty := by
    by_cases same : u = t
    · rw [same, self, pc]
      exact ⟨rfl, rfl⟩
    · rw [others u same]
      exact ⟨rfl, rfl⟩
  -- the new place is behind all places so far
  have last {u : τ} {n : Nat} (is : ((s.stamp t v).pc u).stamp = some n) :
      u = t ∧ n = s.now ∨ (s.pc u).stamp = some n := by
    by_cases same : u = t
    · rw [same, self] at is
      exact .inl ⟨same, (Option.some.inj is).symm⟩
    · rw [others u same] at is
      exact .inr is
  have fresh (x : ρ) (tid : Nat) (data : V) (h : Fresh s x tid data) :
      Fresh (s.stamp t v) x tid data :=
    ⟨h.le, fun is clean => h.same is fun u b hb => clean u b (by rw [(writes u).2]; exact hb)⟩
  constructor
  case locks =>
    intro x
    simp only [held']
    exact inv.locks x
  case alone =>
    intro u w x hu hw
    rw [held'] at hu hw
    exact inv.alone u w x hu hw
  case sound =>
    intro u
    by_cases same : u = t
    · rw [same, self]
      refine ⟨⟨started.shift fresh, Nat.lt_succ_self _, fun a _ e he _ later => ?_⟩, [], rfl, nofun⟩
      -- no entry has a later place yet
      exact absurd (inv.past e he) (Nat.lt_asymm later)
    · rw [others u same]
      refine (inv.sound u).shift ⟨fresh, Nat.le_succ _, ?_, ?_, fun _ _ => rfl, fun _ _ => rfl⟩
      · intro n b _ _ behind e he wr later
        rcases behind e he wr later with ⟨w, c, hc, row⟩ | lt
        · exact .inl ⟨w, c, by rw [(writes w).1, (writes w).2]; exact hc, row⟩
        · exact .inr lt
      · intro n m b lt valid
        refine ⟨valid.known, fun w k is mem => ?_, valid.max⟩
        -- the place of `t` is behind that of every validation under way
        rcases last is with ⟨-, rfl⟩ | is
        · exact .inr lt
        · rw [held'] at mem
          exact valid.apart w k is mem
  case current =>
    intro x none
    exact inv.current x fun u b hb => none u b (by rw [(writes u).1]; exact hb)
  case past => exact fun e he => Nat.lt_succ_of_lt (inv.past e he)
  case covered =>
    intro e he r hr u n is mem
    rcases last is with ⟨-, rfl⟩ | is
    · exact inv.past e he
    · rw [held'] at mem
      exact inv.covered e he r hr u n is mem
  case writes => exact inv.writes
  case replays => exact inv.replays
  case passes => exact inv.passes

omit [DecidableEq ρ] [DecidableEq τ] in
theorem entry_writesTo {v : Validation ρ V} {n : Nat} {x : ρ} :
    (v.entry n).writesTo x ↔ x ∈ v.writeSet.map (·.origRow) := by
  simp [Entry.writesTo, Validation.entry]

omit [DecidableEq τ] in
/-- What a transaction knows when all its accesses are validated. -/
theorem validated (inv : SiloInv init s) {v : Validation ρ V} {n maxTid : Nat}
    (pc : s.pc t = .writeValidate v n [] maxTid) :
    Stamped s v n ∧ (∀ a ∈ v.readSet ++ v.writeSet, Validated init s t n maxTid a) ∧
      ∀ a ∈ v.writeSet, (s.word a.origRow).tid = a.tid := by
  have := inv.sound t
  rw [pc] at this
  obtain ⟨stamped, reads, done, split, known⟩ := this
  rw [List.append_nil] at split
  rw [← split] at known
  refine ⟨stamped, fun a ha => ?_, fun a ha => (known a ha).2⟩
  rcases List.mem_append.mp ha with ha | ha
  · exact reads a ha
  · exact (known a ha).1

omit [DecidableEq τ] in
/-- Nobody has read or written at a later place what a validating transaction writes. -/
theorem not_later (inv : SiloInv init s) {n : Nat} (is : (s.pc t).stamp = some n) {x : ρ}
    (mem : x ∈ (s.pc t).held) {e : Entry ρ V} (he : e ∈ serialOrder s.log) (later : n < e.time) :
    ¬ e.writesTo x ∧ ∀ r ∈ e.reads, r.1 ≠ x := by
  have he := mem_serialOrder.mp he
  have unread : ∀ r ∈ e.reads, r.1 ≠ x := by
    intro r hr same
    exact absurd (inv.covered e he r hr t n is (same ▸ mem)) (Nat.lt_asymm later)
  refine ⟨fun writes => ?_, unread⟩
  obtain ⟨r, hr, same⟩ := inv.writes e he x writes
  exact unread r hr same

theorem commit (inv : SiloInv init s) {v : Validation ρ V} {n maxTid : Nat}
    (pc : s.pc t = .writeValidate v n [] maxTid) : SiloInv init (s.commit t v n maxTid) := by
  obtain ⟨stamped, known, tids⟩ := inv.validated pc
  have is : (s.pc t).stamp = some n := by
    rw [pc]
    rfl
  have mine : (s.pc t).held = v.writeSet.map (·.origRow) := by
    rw [pc]
    rfl
  have later {x : ρ} (mem : x ∈ v.writeSet.map (·.origRow)) {e : Entry ρ V}
      (he : e ∈ serialOrder s.log) (lt : n < e.time) := inv.not_later is (mine ▸ mem) he lt
  have distinct : (v.writeSet.map (·.origRow)).Nodup :=
    stamped.started.nodup.sublist ((List.sublist_append_right ..).map _)
  have order : serialOrder (s.commit t v n maxTid).log = place (v.entry n) (serialOrder s.log) :=
    serialOrder_concat _
  have log : (s.commit t v n maxTid).log = s.log ++ [v.entry n] := rfl
  have others (u : τ) (ne : u ≠ t) : (s.commit t v n maxTid).pc u = s.pc u :=
    Function.update_of_ne ne ..
  have self : (s.commit t v n maxTid).pc t = .write (nextTid (s.curTid t) maxTid) v.writeSet :=
    Function.update_self ..
  have held (u : τ) : ((s.commit t v n maxTid).pc u).held = (s.pc u).held := by
    by_cases same : u = t
    · rw [same, self, mine]
      rfl
    · rw [others u same]
  have dirty (u : τ) : ((s.commit t v n maxTid).pc u).dirty = (s.pc u).dirty := by
    by_cases same : u = t
    · rw [same, self, pc]
      rfl
    · rw [others u same]
  -- all writes of `t` are owed from now on
  have owes (u : τ) (b) (hb : b ∈ (s.pc u).owed) : b ∈ ((s.commit t v n maxTid).pc u).owed := by
    by_cases same : u = t
    · rw [same, pc] at hb
      cases hb
    · rw [others u same]
      exact hb
  have stamps (u : τ) (k : Nat) (h : ((s.commit t v n maxTid).pc u).stamp = some k) :
      u ≠ t ∧ (s.pc u).stamp = some k := by
    by_cases same : u = t
    · rw [same, self] at h
      cases h
    · rw [others u same] at h
      exact ⟨same, h⟩
  -- the entry changes the rows that it writes, and no others
  have keep (x : ρ) (none : x ∉ v.writeSet.map (·.origRow)) :
      after init (serialOrder (s.commit t v n maxTid).log) x = after init (serialOrder s.log) x := by
    rw [order]
    exact after_place_of_not_writesTo (sorted_serialOrder _) (mt entry_writesTo.mp none)
  constructor
  case locks =>
    intro x
    simp only [held]
    exact inv.locks x
  case alone =>
    intro u w x hu hw
    rw [held] at hu hw
    exact inv.alone u w x hu hw
  case sound =>
    intro u
    by_cases same : u = t
    · rw [same, self]
      refine ⟨distinct, fun a ha => ⟨?_, ?_⟩⟩
      · -- the new tid is above all tids that the transaction has seen
        have max := (known a (List.mem_append_right _ ha)).max
        have := lt_nextTid (s.curTid t) maxTid
        change (s.word a.origRow).tid < _
        rw [tids a ha]
        omega
      · rw [order]
        -- nobody with a later place has written the row, for `t` holds its lock
        refine after_place_of_mem (sorted_serialOrder _) (List.mem_map.mpr ⟨a, ha, rfl⟩) ?_ ?_
        · rw [Validation.entry, List.map_map]
          exact distinct
        · exact fun f hf lt => (later (List.mem_map_of_mem ha) hf lt).1
    · rw [others u same]
      refine (inv.sound u).shift ⟨?_, Nat.le_refl s.now, ?_, ?_, fun _ _ => rfl, fun x hx => ?_⟩
      · intro x tid data h
        exact ⟨h.le, fun is clean => h.same is fun w b hb => clean w b (by rw [dirty]; exact hb)⟩
      · intro k b _ _ behind e he wr lt
        rcases List.mem_append.mp he with he | he
        · rcases behind e he wr lt with ⟨w, c, hc, row⟩ | lt
          · refine .inl ⟨w, c, ?_, row⟩
            rw [dirty]
            rcases List.mem_append.mp hc with hc | hc
            · exact List.mem_append_left _ (owes w c hc)
            · exact List.mem_append_right _ hc
          · exact .inr lt
        · -- the new entry: what it writes is owed, so a copy made before is behind it
          rw [List.mem_singleton.mp he] at wr
          obtain ⟨c, hc, row⟩ := List.mem_map.mp (entry_writesTo.mp wr)
          refine .inl ⟨t, c, ?_, row⟩
          rw [self]
          exact List.mem_append_left _ hc
      · intro k m b lt valid
        refine ⟨?_, fun w j is' mem => ?_, valid.max⟩
        · rw [order]
          rcases Nat.lt_or_ge k n with before | behind
          · rw [valueAt_place_of_lt before]
            exact valid.known
          · -- a writer with an earlier place would have had its lock at the validation
            rw [valueAt_place_of_not_writesTo (sorted_serialOrder _), valid.known]
            intro wr
            have mem := entry_writesTo.mp wr
            rw [← mine] at mem
            rcases valid.apart t n is mem with who | lt
            · exact same who.symm
            · omega
        · rw [held] at mem
          exact valid.apart w j (stamps w j is').2 mem
      · refine keep x fun mem => same ?_
        rw [← mine] at mem
        exact inv.alone u t x hx mem
  case current =>
    intro x none
    rw [keep x]
    · exact inv.current x fun u b hb => none u b (owes u b hb)
    · intro mem
      -- a row of the write set is owed
      obtain ⟨c, hc, row⟩ := List.mem_map.mp mem
      refine none t c ?_ row
      rw [self]
      exact hc
  case past =>
    intro e he
    rcases List.mem_append.mp he with he | he
    · exact inv.past e he
    · rw [List.mem_singleton.mp he]
      exact stamped.past
  case covered =>
    intro e he r hr u k is' mem
    obtain ⟨ne, is'⟩ := stamps u k is'
    rw [held] at mem
    rcases List.mem_append.mp he with he | he
    · exact inv.covered e he r hr u k is' mem
    · rw [List.mem_singleton.mp he] at hr ⊢
      obtain ⟨a, ha, rfl⟩ := List.mem_map.mp hr
      -- another validation that holds the row has a later place
      exact ((known a ha).apart u k is' mem).resolve_left ne
  case writes =>
    intro e he x wr
    rcases List.mem_append.mp he with he | he
    · exact inv.writes e he x wr
    · rw [List.mem_singleton.mp he] at wr ⊢
      obtain ⟨a, ha, row⟩ := List.mem_map.mp (entry_writesTo.mp wr)
      exact ⟨_, List.mem_map.mpr ⟨a, List.mem_append_right _ ha, rfl⟩, row⟩
  case replays =>
    rw [order]
    -- the reads see the log up to the place, and no later entry has read what is written
    refine inv.replays.place (sorted_serialOrder _) (fun r hr => ?_) fun f hf lt r hr wr => ?_
    · obtain ⟨a, ha, rfl⟩ := List.mem_map.mp hr
      exact (known a ha).known
    · exact (later (entry_writesTo.mp wr) hf lt).2 r hr rfl
  case passes => exact inv.passes

/-! ### The writes -/

theorem copyRow (inv : SiloInv init s) {tid : Nat} {rest : List (Access ρ V)}
    (pc : s.pc t = .write tid (a :: rest)) : SiloInv init (s.copyRow t tid a rest) := by
  have sound := inv.sound t
  rw [pc] at sound
  obtain ⟨nodup, owed⟩ := sound
  have others (u : τ) (ne : u ≠ t) : (s.copyRow t tid a rest).pc u = s.pc u :=
    Function.update_of_ne ne ..
  have self : (s.copyRow t tid a rest).pc t = .verify tid a rest := Function.update_self ..
  have held (u : τ) : ((s.copyRow t tid a rest).pc u).held = (s.pc u).held := by
    by_cases same : u = t
    · rw [same, self, pc]
      rfl
    · rw [others u same]
  have stamps (u : τ) : ((s.copyRow t tid a rest).pc u).stamp = (s.pc u).stamp := by
    by_cases same : u = t
    · rw [same, self, pc]
      rfl
    · rw [others u same]
  have dirty (u : τ) (b) (hb : b ∈ (s.pc u).dirty) : b ∈ ((s.copyRow t tid a rest).pc u).dirty := by
    by_cases same : u = t
    · rw [same, pc] at hb
      cases hb
    · rw [others u same]
      exact hb
  have mine : a ∈ ((s.copyRow t tid a rest).pc t).dirty := by
    rw [self]
    exact List.mem_singleton_self a
  have data (x : ρ) (ne : x ≠ a.origRow) : (s.copyRow t tid a rest).data x = s.data x :=
    Function.update_of_ne ne ..
  have fresh (x : ρ) (k : Nat) (d : V) (h : Fresh s x k d) :
      Fresh (s.copyRow t tid a rest) x k d := by
    refine ⟨h.le, fun is clean => ?_⟩
    -- the row is dirty until its tid is stored, so a reader cannot take its tid for clean
    have ne : x ≠ a.origRow := fun same => clean t a mine same.symm
    rw [data x ne]
    exact h.same is fun u b hb => clean u b (dirty u b hb)
  constructor
  case locks =>
    intro x
    simp only [held]
    exact inv.locks x
  case alone =>
    intro u w x hu hw
    rw [held] at hu hw
    exact inv.alone u w x hu hw
  case sound =>
    intro u
    by_cases same : u = t
    · rw [same, self]
      refine ⟨nodup, (owed a List.mem_cons_self).newer, fun b hb => ?_⟩
      exact (owed b (List.mem_cons_of_mem _ hb)).shift rfl rfl
    · rw [others u same]
      refine (inv.sound u).shift ⟨fresh, Nat.le_refl s.now, ?_, ?_, fun _ _ => rfl, fun _ _ => rfl⟩
      · intro k b _ _ behind e he wr lt
        rcases behind e he wr lt with ⟨w, c, hc, row⟩ | lt
        · refine .inl ⟨w, c, ?_, row⟩
          by_cases who : w = t
          · rw [who, pc] at hc
            rw [who, self]
            -- the write that was owed is now one of the dirty rows
            rcases List.mem_cons.mp (by simpa [SiloPc.owed, SiloPc.dirty] using hc) with rfl | hc
            · exact List.mem_append_right _ (List.mem_singleton_self _)
            · exact List.mem_append_left _ hc
          · rw [others w who]
            exact hc
        · exact .inr lt
      · intro k m b _ valid
        refine ⟨valid.known, fun w j is mem => ?_, valid.max⟩
        rw [stamps] at is
        rw [held] at mem
        exact valid.apart w j is mem
  case current =>
    intro x none
    by_cases same : x = a.origRow
    · -- what is copied is what the log gives
      have copied : (s.copyRow t tid a rest).data a.origRow = a.data := Function.update_self ..
      rw [same, copied]
      exact (owed a List.mem_cons_self).logged
    · rw [data x same]
      refine inv.current x fun u b hb row => ?_
      by_cases who : u = t
      · rw [who, pc] at hb
        rcases List.mem_cons.mp hb with rfl | hb
        · exact same row.symm
        · exact none t b (by rw [self]; exact hb) row
      · exact none u b (by rw [others u who]; exact hb) row
  case past => exact inv.past
  case covered =>
    intro e he r hr u n is mem
    rw [stamps] at is
    rw [held] at mem
    exact inv.covered e he r hr u n is mem
  case writes => exact inv.writes
  case replays => exact inv.replays
  case passes => exact inv.passes

theorem store (inv : SiloInv init s) {tid : Nat} {rest : List (Access ρ V)}
    (pc : s.pc t = .store tid a rest) :
    SiloInv init ((s.setWord a.origRow ⟨tid, true⟩).goto t (.release tid a rest)) := by
  have sound := inv.sound t
  rw [pc] at sound
  obtain ⟨nodup, newer, owed⟩ := sound
  have mine : a.origRow ∈ (s.pc t).held := by
    rw [pc]
    exact List.mem_cons_self
  have word : (s.setWord a.origRow ⟨tid, true⟩).word a.origRow = ⟨tid, true⟩ :=
    Function.update_self ..
  have word' (x : ρ) (ne : x ≠ a.origRow) :
      (s.setWord a.origRow ⟨tid, true⟩).word x = s.word x := Function.update_of_ne ne ..
  have tids (x : ρ) : (s.word x).tid ≤ ((s.setWord a.origRow ⟨tid, true⟩).word x).tid := by
    by_cases same : x = a.origRow
    · rw [same, word]
      exact Nat.le_of_lt newer
    · exact Nat.le_of_eq (congrArg TidWord.tid (word' x same).symm)
  have others (u : τ) (ne : u ≠ t) :
      ((s.setWord a.origRow ⟨tid, true⟩).goto t (.release tid a rest)).pc u = s.pc u :=
    Function.update_of_ne ne ..
  have self : ((s.setWord a.origRow ⟨tid, true⟩).goto t (.release tid a rest)).pc t =
      .release tid a rest := Function.update_self ..
  have held (u : τ) :
      (((s.setWord a.origRow ⟨tid, true⟩).goto t (.release tid a rest)).pc u).held =
        (s.pc u).held := by
    by_cases same : u = t
    · rw [same, self, pc]
      rfl
    · rw [others u same]
  -- the only write that is done for good is that of `a`
  have writes (u : τ) (b) (hb : b ∈ (s.pc u).owed ++ (s.pc u).dirty) :
      b ∈ (((s.setWord a.origRow ⟨tid, true⟩).goto t (.release tid a rest)).pc u).owed ++
        (((s.setWord a.origRow ⟨tid, true⟩).goto t (.release tid a rest)).pc u).dirty ∨
          u = t ∧ b = a := by
    by_cases same : u = t
    · rw [same, pc] at hb
      rcases List.mem_append.mp hb with hb | hb
      · rw [same, self]
        exact .inl (List.mem_append_left _ hb)
      · exact .inr ⟨same, List.mem_singleton.mp hb⟩
    · rw [others u same]
      exact .inl hb
  have stamps (u : τ) :
      (((s.setWord a.origRow ⟨tid, true⟩).goto t (.release tid a rest)).pc u).stamp =
        (s.pc u).stamp := by
    by_cases same : u = t
    · rw [same, self, pc]
      rfl
    · rw [others u same]
  have owes (u : τ) :
      (((s.setWord a.origRow ⟨tid, true⟩).goto t (.release tid a rest)).pc u).owed =
        (s.pc u).owed := by
    by_cases same : u = t
    · rw [same, self, pc]
      rfl
    · rw [others u same]
  constructor
  case locks =>
    intro x
    simp only [held]
    change ((s.setWord a.origRow ⟨tid, true⟩).word x).lock = true ↔ _
    by_cases same : x = a.origRow
    · rw [same, word]
      exact iff_of_true rfl ⟨t, mine⟩
    · rw [word' x same]
      exact inv.locks x
  case alone =>
    intro u w x hu hw
    rw [held] at hu hw
    exact inv.alone u w x hu hw
  case sound =>
    intro u
    by_cases same : u = t
    · rw [same, self]
      refine ⟨nodup, fun b hb => (owed b hb).shift ?_ rfl⟩
      -- the other writes of `t` are to other rows
      have ne : b.origRow ≠ a.origRow := fun row =>
        (List.nodup_cons.mp nodup).1 (List.mem_map.mpr ⟨b, hb, row⟩)
      exact congrArg TidWord.tid (word' _ ne)
    · rw [others u same]
      refine (inv.sound u).shift ⟨?_, Nat.le_refl s.now, ?_, ?_, fun x hx => ?_, fun _ _ => rfl⟩
      · intro x k d h
        refine ⟨Nat.le_trans h.le (tids x), fun is clean => ?_⟩
        change ((s.setWord a.origRow ⟨tid, true⟩).word x).tid = k at is
        by_cases row : x = a.origRow
        · -- a new tid is none that came with a copy
          have le := h.le
          rw [row, word] at is
          rw [row] at le
          change tid = k at is
          omega
        · rw [word' x row] at is
          refine h.same is fun w b hb row' => ?_
          rcases writes w b (List.mem_append_right _ hb) with hb' | ⟨-, rfl⟩
          · by_cases who : w = t
            · rw [who, pc] at hb
              rw [List.mem_singleton.mp hb] at row'
              exact row row'.symm
            · exact clean w b (by rw [others w who]; exact hb) row'
          · exact row row'.symm
      · intro k b _ fresh behind e he wr lt
        change _ ∨ b.tid < ((s.setWord a.origRow ⟨tid, true⟩).word b.origRow).tid
        rcases behind e he wr lt with ⟨w, c, hc, row⟩ | lt
        · rcases writes w c hc with hc | ⟨-, rfl⟩
          · exact .inl ⟨w, c, hc, row⟩
          · right
            -- whoever has read the row before has an older tid now
            have le := fresh.le
            rw [← row] at le ⊢
            rw [word]
            exact Nat.lt_of_le_of_lt le newer
        · exact .inr (Nat.lt_of_lt_of_le lt (tids _))
      · intro k m b _ valid
        refine ⟨valid.known, fun w j is mem => ?_, valid.max⟩
        rw [stamps] at is
        rw [held] at mem
        exact valid.apart w j is mem
      · change ((s.setWord a.origRow ⟨tid, true⟩).word x).tid = _
        rw [word' x]
        intro row
        -- no other thread holds the row
        exact same (inv.alone u t x hx (row ▸ mine))
  case current =>
    intro x none
    exact inv.current x fun u b hb => none u b (by rw [owes]; exact hb)
  case past => exact inv.past
  case covered =>
    intro e he r hr u n is mem
    rw [stamps] at is
    rw [held] at mem
    exact inv.covered e he r hr u n is mem
  case writes => exact inv.writes
  case replays => exact inv.replays
  case passes => exact inv.passes

/-! ### Every step -/

omit [DecidableEq ρ] [DecidableEq τ] in
theorem assert_of {b : Bool} (h : b = true) : s.assert b = s := by
  rw [h]
  simp [SiloState.assert]

omit [DecidableEq τ] in
/-- The lock that a thread holds is set. -/
theorem locked (inv : SiloInv init s) {x : ρ} (mem : x ∈ (s.pc t).held) :
    (s.word x).lock = true :=
  (inv.locks x).mpr ⟨t, mem⟩

omit [DecidableEq τ] in
/-- `access` returns a copy of what the row has at that moment. -/
theorem returned (inv : SiloInv init s) {accesses : List (Access ρ V)} {row : ρ}
    {type : AccessType} {v : TidWord} {data : V} (pc : s.pc t = .reload accesses row type v data)
    (same : s.word row = v) :
    v.lock = false ∧ s.data row = data ∧ after init (serialOrder s.log) row = data := by
  have sound := inv.sound t
  rw [pc] at sound
  obtain ⟨-, -, free, fresh⟩ := sound
  rw [← same] at free
  have quiet (u : τ) (b) (hb : b ∈ (s.pc u).owed ++ (s.pc u).dirty) : b.origRow ≠ row :=
    inv.not_owed_of_free free hb
  have value : s.data row = data :=
    fresh.same (congrArg TidWord.tid same) fun u b hb => quiet u b (List.mem_append_right _ hb)
  refine ⟨same ▸ free, value, ?_⟩
  rw [inv.current row fun u b hb => quiet u b (List.mem_append_left _ hb), value]

variable {preAbort noWait : Bool}

/-- An abort of the validation releases the locks of the write set. -/
theorem abort (inv : SiloInv init s) {q : SiloPc ρ V} (pc : s.pc t = q) {v : Validation ρ V}
    (started : Started s v) (held : q.held = v.writeSet.map (·.origRow)) (owed : q.owed = [])
    (dirty : q.dirty = []) : SiloInv init (s.goto t (.unlock none v.writeSet)) :=
  inv.goto pc held.symm owed.symm dirty.symm (.inl rfl)
    ⟨started.nodup.sublist ((List.sublist_append_right ..).map _), nofun⟩

/-! ### The steps of a thread, one lemma for each place that decides something -/

omit [DecidableEq τ] in
/-- The lock that a thread holds is set, at a place that is known. -/
theorem locked_at (inv : SiloInv init s) {q : SiloPc ρ V} (pc : s.pc t = q) {x : ρ}
    (mem : x ∈ q.held) : (s.word x).lock = true :=
  inv.locked (t := t) (pc ▸ mem)

omit [DecidableEq ρ] [DecidableEq τ] in
/-- The rows locked so far are different rows. -/
theorem nodup_held {v : Validation ρ V} {held rest : List (Access ρ V)} (started : Started s v)
    (split : v.writeSet = held ++ rest) : (held.map (·.origRow)).Nodup := by
  have all := started.nodup.sublist ((List.sublist_append_right ..).map _)
  rw [split] at all
  exact all.sublist ((List.sublist_append_left ..).map _)

/-- After the copy: the access is fresh when the word is still the one that was loaded. -/
theorem next_reload (inv : SiloInv init s) {accesses : List (Access ρ V)} {row : ρ}
    {type : AccessType} {v : TidWord} {data : V} (pc : s.pc t = .reload accesses row type v data)
    (h : siloNext preAbort noWait s t = some s') : SiloInv init s' := by
  have sound := inv.sound t
  rw [pc] at sound
  obtain ⟨begun, new, free, fresh⟩ := sound
  simp only [siloNext, pc] at h
  split at h
  · rw [← Option.some.inj h]
    exact inv.goto pc rfl rfl rfl (.inl rfl) ⟨begun, new⟩
  · rw [← Option.some.inj h]
    refine inv.goto pc rfl rfl rfl (.inl rfl) ⟨?_, ?_⟩
    · rw [List.map_append]
      refine List.nodup_append.mpr ⟨begun.nodup, List.nodup_singleton _, fun x hx y hy same => ?_⟩
      rw [same, List.mem_singleton.mp hy] at hx
      exact new hx
    · intro a ha
      rcases List.mem_append.mp ha with ha | ha
      · exact begun.fresh a ha
      · rw [List.mem_singleton.mp ha]
        exact fresh

/-- The comparisons of `_pre_abort` hold nothing yet: they go on or give up. -/
theorem next_pre (inv : SiloInv init s) {v : Validation ρ V} {rest : List (Access ρ V)}
    (pc : s.pc t = .preWrite v rest ∨ s.pc t = .preRead v rest)
    (h : siloNext preAbort noWait s t = some s') : SiloInv init s' := by
  have sound := inv.sound t
  rcases pc with pc | pc
  · rw [pc] at sound
    cases rest with
    | nil =>
      simp only [siloNext, pc, Option.some.injEq] at h
      rw [← h]
      exact inv.goto pc rfl rfl rfl (.inl rfl) sound
    | cons a rest =>
      simp only [siloNext, pc] at h
      split at h
      · rw [← Option.some.inj h]
        -- a changed tid: the validation fails before it has locked anything
        exact inv.goto pc rfl rfl rfl (.inl rfl) ⟨List.nodup_nil, nofun⟩
      · rw [← Option.some.inj h]
        exact inv.goto pc rfl rfl rfl (.inl rfl) sound
  · rw [pc] at sound
    cases rest with
    | nil =>
      simp only [siloNext, pc, Option.some.injEq] at h
      rw [← h]
      exact inv.goto pc rfl rfl rfl (.inl rfl) ⟨sound, rfl⟩
    | cons a rest =>
      simp only [siloNext, pc] at h
      split at h
      · rw [← Option.some.inj h]
        exact inv.goto pc rfl rfl rfl (.inl rfl) ⟨List.nodup_nil, nofun⟩
      · rw [← Option.some.inj h]
        exact inv.goto pc rfl rfl rfl (.inl rfl) sound

/-- The load before a lock. With all locks held the transaction gets its place in the serial
order. -/
theorem next_lock (inv : SiloInv init s) {v : Validation ρ V} {held rest : List (Access ρ V)}
    (pc : s.pc t = .lock v held rest) (h : siloNext preAbort noWait s t = some s') :
    SiloInv init s' := by
  have sound := inv.sound t
  rw [pc] at sound
  obtain ⟨started, split⟩ := sound
  cases rest with
  | nil =>
    simp only [siloNext, pc, Option.some.injEq] at h
    rw [← h]
    exact inv.stamp pc
  | cons a rest =>
    simp only [siloNext, pc] at h
    split at h
    · obtain ⟨-, h⟩ := (Option.ite_none_right_eq_some).mp h
      rw [← Option.some.inj h]
      exact inv.goto pc rfl rfl rfl (.inl rfl)
        ⟨nodup_held started split, fun w hw => Option.some.inj hw ▸ started⟩
    · next free =>
      rw [← Option.some.inj h]
      exact inv.goto pc rfl rfl rfl (.inl rfl) ⟨started, split, by simpa using free⟩

/-- The compare-and-swap of a lock takes the row when the word is still the free one. -/
theorem next_cas (inv : SiloInv init s) {v : Validation ρ V} {held rest : List (Access ρ V)}
    {w : TidWord} (pc : s.pc t = .cas v held a rest w)
    (h : siloNext preAbort noWait s t = some s') : SiloInv init s' := by
  have sound := inv.sound t
  rw [pc] at sound
  obtain ⟨started, split, free⟩ := sound
  simp only [siloNext, pc] at h
  split at h
  · next same =>
    rw [← Option.some.inj h, ← same]
    rw [← same] at free
    refine inv.acquire pc free (fun y => ?_) rfl rfl rfl ⟨started, split⟩
    change y ∈ (held ++ [a]).map _ ↔ _ ∨ y ∈ held.map _
    rw [List.map_append, List.mem_append, or_comm]
    exact or_congr_left List.mem_singleton
  · split at h
    · rw [← Option.some.inj h]
      exact inv.goto pc rfl rfl rfl (.inl rfl)
        ⟨nodup_held started split, fun w hw => Option.some.inj hw ▸ started⟩
    · rw [← Option.some.inj h]
      exact inv.goto pc rfl rfl rfl (.inl rfl) ⟨started, split⟩

/-- The comparison with the tid of the access, once its row is locked. -/
theorem next_check (inv : SiloInv init s) {v : Validation ρ V} {held rest : List (Access ρ V)}
    (pc : s.pc t = .check v held a rest) (h : siloNext preAbort noWait s t = some s') :
    SiloInv init s' := by
  have sound := inv.sound t
  rw [pc] at sound
  obtain ⟨started, split⟩ := sound
  have again : v.writeSet = (held ++ [a]) ++ rest := by rw [split, List.append_assoc]; rfl
  have lock : (s.word a.origRow).lock = true :=
    inv.locked_at pc (List.mem_map_of_mem (List.mem_append_right _ (List.mem_singleton_self a)))
  simp only [siloNext, pc] at h
  rw [assert_of (by rw [lock, Bool.or_true])] at h
  split at h
  · rw [← Option.some.inj h]
    exact inv.goto pc rfl rfl rfl (.inl rfl) ⟨nodup_held started again, nofun⟩
  · rw [← Option.some.inj h]
    exact inv.goto pc rfl rfl rfl (.inl rfl) ⟨started, again⟩

/-- The release of the locks; behind it the locking begins again or the transaction ends. -/
theorem next_unlock (inv : SiloInv init s) {again : Option (Validation ρ V)}
    {rest : List (Access ρ V)} (pc : s.pc t = .unlock again rest)
    (h : siloNext preAbort noWait s t = some s') : SiloInv init s' := by
  have sound := inv.sound t
  rw [pc] at sound
  obtain ⟨nodup, started⟩ := sound
  cases rest with
  | nil =>
    cases again with
    | none =>
      simp only [siloNext, pc, Option.some.injEq] at h
      rw [← h]
      exact inv.goto pc rfl rfl rfl (.inl rfl) trivial
    | some v =>
      simp only [siloNext, pc, Option.some.injEq] at h
      -- after `try_lock` has failed the validation starts over
      rw [← h, startLocking]
      split
      · exact inv.goto pc rfl rfl rfl (.inl rfl) (started v rfl)
      · exact inv.goto pc rfl rfl rfl (.inl rfl) ⟨started v rfl, rfl⟩
  | cons a rest =>
    have lock : (s.word a.origRow).lock = true := inv.locked_at pc List.mem_cons_self
    -- the assertion of `release` holds, since the row is locked
    have h : some ((s.assert (s.word a.origRow).lock).goto t
        (.clear again a rest { s.word a.origRow with lock := false })) = some s' := by
      cases again <;> simpa only [siloNext, pc] using h
    rw [assert_of lock] at h
    rw [← Option.some.inj h]
    exact inv.goto pc rfl rfl rfl (.inl rfl) ⟨nodup, started, rfl⟩

/-- The validation of a read: a free row with the tid of the copy has the copy's value, and
no transaction that validates can write it at an earlier place. -/
theorem next_readValidate (inv : SiloInv init s) {v : Validation ρ V} {stamp maxTid : Nat}
    {rest : List (Access ρ V)} (pc : s.pc t = .readValidate v stamp rest maxTid)
    (h : siloNext preAbort noWait s t = some s') : SiloInv init s' := by
  have sound := inv.sound t
  rw [pc] at sound
  obtain ⟨stamped, done, split, valid⟩ := sound
  cases rest with
  | nil =>
    simp only [siloNext, pc, Option.some.injEq] at h
    rw [← h]
    -- the read set is done
    rw [List.append_nil] at split
    refine inv.goto pc rfl rfl rfl (.inr rfl) ⟨stamped, ?_, [], rfl, nofun⟩
    rw [split]
    exact valid
  | cons a rest =>
    simp only [siloNext, pc] at h
    split at h
    · next ok =>
      obtain ⟨free, tid⟩ := validate_read ok
      have mem : a ∈ v.readSet ++ v.writeSet := by
        rw [split]
        simp
      have known : Validated init s t stamp (raiseTid maxTid a) a := by
        refine ⟨inv.known (stamped.started.fresh a mem) (stamped.behind a mem) tid
          fun u b hb => inv.not_owed_of_free free hb, fun u n _ held => ?_, (le_raiseTid _ _).2⟩
        -- nobody has locked the row at the moment
        have := inv.locked held
        rw [free] at this
        cases this
      rw [← Option.some.inj h]
      refine inv.goto pc rfl rfl rfl (.inr rfl)
        ⟨stamped, done ++ [a], by rw [split, List.append_assoc]; rfl, fun b hb => ?_⟩
      -- the largest tid so far grows
      rcases List.mem_append.mp hb with hb | hb
      · exact (valid b hb).raise
      · rw [List.mem_singleton.mp hb]
        exact known
    · rw [← Option.some.inj h]
      exact inv.abort pc stamped.started rfl rfl rfl

/-- The validation of a write: the row is the thread's own, so its tid alone decides. -/
theorem next_writeValidate (inv : SiloInv init s) {v : Validation ρ V} {stamp maxTid : Nat}
    {rest : List (Access ρ V)} (pc : s.pc t = .writeValidate v stamp rest maxTid)
    (h : siloNext preAbort noWait s t = some s') : SiloInv init s' := by
  have sound := inv.sound t
  rw [pc] at sound
  obtain ⟨stamped, reads, done, split, valid⟩ := sound
  cases rest with
  | nil =>
    simp only [siloNext, pc, Option.some.injEq] at h
    rw [← h]
    exact inv.commit pc
  | cons a rest =>
    simp only [siloNext, pc] at h
    split at h
    · next ok =>
      have tid := validate_write ok
      have mem : a ∈ v.readSet ++ v.writeSet := by
        rw [split]
        simp
      have held : a.origRow ∈ (s.pc t).held := by
        rw [pc]
        change _ ∈ v.writeSet.map _
        rw [split]
        exact List.mem_map_of_mem (by simp)
      have known : Validated init s t stamp (raiseTid maxTid a) a := by
        refine ⟨inv.known (stamped.started.fresh a mem) (stamped.behind a mem) tid
          fun u b hb => inv.not_owed_of_held held (by rw [pc]; rfl) hb, fun u n _ mem => ?_,
          (le_raiseTid _ _).2⟩
        -- a row has one holder
        exact .inl (inv.alone u t _ mem held)
      rw [← Option.some.inj h]
      refine inv.goto pc rfl rfl rfl (.inr rfl)
        ⟨stamped, fun b hb => (reads b hb).raise, done ++ [a],
          by rw [split, List.append_assoc]; rfl, fun b hb => ?_⟩
      rcases List.mem_append.mp hb with hb | hb
      · exact ⟨(valid b hb).1.raise, (valid b hb).2⟩
      · rw [List.mem_singleton.mp hb]
        exact ⟨known, tid⟩
    · rw [← Option.some.inj h]
      exact inv.abort pc stamped.started rfl rfl rfl

/-- A step of `write` after its copy: the row is still locked, so every assertion holds. -/
theorem next_written (inv : SiloInv init s) {tid : Nat} {rest : List (Access ρ V)}
    (pc : s.pc t = .verify tid a rest ∨ s.pc t = .release tid a rest)
    (h : siloNext preAbort noWait s t = some s') : SiloInv init s' := by
  have sound := inv.sound t
  rcases pc with pc | pc
  · have lock : (s.word a.origRow).lock = true := inv.locked_at pc List.mem_cons_self
    rw [pc] at sound
    simp only [siloNext, pc] at h
    rw [assert_of (by simpa [lock] using sound.2.1)] at h
    rw [← Option.some.inj h]
    exact inv.goto pc rfl rfl rfl (.inl rfl) sound
  · have lock : (s.word a.origRow).lock = true := inv.locked_at pc List.mem_cons_self
    rw [pc] at sound
    simp only [siloNext, pc] at h
    rw [assert_of lock] at h
    rw [← Option.some.inj h]
    exact inv.goto pc rfl rfl rfl (.inl rfl) ⟨sound.1, sound.2, rfl⟩

/-- A thread either moves without touching a row (`goto`), takes or gives back one lock
(`acquire`, `free`), or is at one of the four moments that the other threads can see:
`stamp`, `commit`, `copyRow` and `store`. -/
theorem next (inv : SiloInv init s) (h : siloNext preAbort noWait s t = some s') :
    SiloInv init s' := by
  have sound := inv.sound t
  cases pc : s.pc t with
  | idle =>
    simp only [siloNext, pc] at h
    cases h
  | running accesses =>
    simp only [siloNext, pc] at h
    cases h
  | load accesses row type =>
    -- the loop of `access` goes on with a free word only
    rw [pc] at sound
    simp only [siloNext, pc] at h
    obtain ⟨free, h⟩ := (Option.ite_none_left_eq_some).mp h
    rw [← Option.some.inj h]
    exact inv.goto pc rfl rfl rfl (.inl rfl)
      ⟨sound.1, sound.2, by simpa using free, Nat.le_refl _⟩
  | copy accesses row type v =>
    rw [pc] at sound
    obtain ⟨begun, new, free, le⟩ := sound
    simp only [siloNext, pc, Option.some.injEq] at h
    rw [← h]
    exact inv.goto pc rfl rfl rfl (.inl rfl) ⟨begun, new, free, le, fun _ _ => rfl⟩
  | reload accesses row type v data => exact inv.next_reload pc h
  | preWrite v rest => exact inv.next_pre (.inl pc) h
  | preRead v rest => exact inv.next_pre (.inr pc) h
  | lock v held rest => exact inv.next_lock pc h
  | cas v held a rest w => exact inv.next_cas pc h
  | check v held a rest => exact inv.next_check pc h
  | unlock again rest => exact inv.next_unlock pc h
  | clear again a rest w =>
    rw [pc] at sound
    obtain ⟨nodup, started, word⟩ := sound
    obtain ⟨new, nodup⟩ := List.nodup_cons.mp nodup
    simp only [siloNext, pc, Option.some.injEq] at h
    rw [← h]
    exact inv.free pc word new (fun y => List.mem_cons) rfl rfl rfl ⟨nodup, started⟩
  | readValidate v stamp rest maxTid => exact inv.next_readValidate pc h
  | writeValidate v stamp rest maxTid => exact inv.next_writeValidate pc h
  | write tid rest =>
    rw [pc] at sound
    cases rest with
    | nil =>
      simp only [siloNext, pc, Option.some.injEq] at h
      rw [← h]
      exact inv.goto pc rfl rfl rfl (.inl rfl) trivial
    | cons a rest =>
      simp only [siloNext, pc, Option.some.injEq] at h
      rw [← h]
      exact inv.copyRow pc
  | verify tid a rest => exact inv.next_written (.inl pc) h
  | store tid a rest =>
    simp only [siloNext, pc, Option.some.injEq] at h
    rw [← h]
    exact inv.store pc
  | release tid a rest => exact inv.next_written (.inr pc) h
  | releaseStore tid a rest w =>
    rw [pc] at sound
    obtain ⟨nodup, owed, word⟩ := sound
    obtain ⟨new, nodup⟩ := List.nodup_cons.mp nodup
    simp only [siloNext, pc, Option.some.injEq] at h
    rw [← h]
    exact inv.free pc word new (fun y => List.mem_cons) rfl rfl rfl ⟨nodup, owed⟩

variable {primaryKey : ρ → Nat} {l : SiloLabel ρ V τ}

theorem step (inv : SiloInv init s) (h : siloStep primaryKey preAbort noWait s l = some s') :
    SiloInv init s' := by
  cases l with
  | begin t =>
    simp only [siloStep] at h
    split at h
    · next pc =>
      rw [← Option.some.inj h]
      exact inv.goto pc rfl rfl rfl (.inl rfl) ⟨List.nodup_nil, nofun⟩
    · cases h
  | getRow t row type =>
    have sound := inv.sound t
    simp only [siloStep] at h
    split at h
    · next pc =>
      rw [pc] at sound
      obtain ⟨new, h⟩ := (Option.ite_none_left_eq_some).mp h
      rw [← Option.some.inj h]
      exact inv.goto pc rfl rfl rfl (.inl rfl) ⟨sound, new⟩
    · cases h
  | modify t rid data =>
    have sound := inv.sound t
    simp only [siloStep] at h
    split at h
    · next pc =>
      rw [pc] at sound
      rw [← Option.some.inj h]
      refine inv.goto pc rfl rfl rfl (.inl rfl) ⟨?_, fun a ha => ?_⟩
      · rw [map_origRow_modify]
        exact sound.nodup
      · -- only the local copy changes
        obtain ⟨b, hb, row, tid, read⟩ := mem_modify ha
        rw [← row, ← tid, ← read]
        exact sound.fresh b hb
    · cases h
  | finish t =>
    have sound := inv.sound t
    simp only [siloStep] at h
    split at h
    · next accesses pc =>
      rw [pc] at sound
      rw [← Option.some.inj h, startLocking]
      -- read set and write set are the accesses in another order
      have perm := perm_sets primaryKey accesses
      have started : Started s ⟨readSet accesses, writeSet primaryKey accesses⟩ :=
        ⟨(perm.map _).nodup_iff.mpr sound.nodup, fun a ha => sound.fresh a (perm.mem_iff.mp ha)⟩
      split
      · exact inv.goto pc rfl rfl rfl (.inl rfl) started
      · exact inv.goto pc rfl rfl rfl (.inl rfl) ⟨started, rfl⟩
    · cases h
  | rollback t =>
    simp only [siloStep] at h
    split at h
    · next pc =>
      rw [← Option.some.inj h]
      exact inv.goto pc rfl rfl rfl (.inl rfl) trivial
    · cases h
  | next t => exact inv.next h

theorem of_reachable
    (reached : (siloMachine primaryKey preAbort noWait init τ).Reachable Free s) :
    SiloInv init s := by
  refine reached.invariant (I := SiloInv init) (fun s start => ?_) fun s a s' inv _ h => inv.step h
  cases start
  constructor
  · exact fun x => iff_of_false nofun nofun
  · exact nofun
  · exact fun t => trivial
  · exact fun x _ => rfl
  · exact nofun
  · exact nofun
  · exact nofun
  · trivial
  · rfl

end SiloInv

variable [DecidableEq τ]

/-- **Silo is serializable.** The committed transactions replay in some order, in which every one
reads what the last writer before it left, and the rows have the values after all of them,
where no write is still to be done; no assertion fails; the tid of a row that is about to be
written is below the new one; and `access` returns what the row has at that moment, the
committed value. -/
theorem silo_serializable (primaryKey : ρ → Nat) (preAbort noWait : Bool) (init : ρ → V)
    (s : SiloState ρ V τ)
    (reached : (siloMachine primaryKey preAbort noWait init τ).Reachable Free s) :
    (∃ order : List (Entry ρ V), order.Perm s.log ∧ Replays init order ∧
      ∀ x, (∀ t, ∀ a ∈ (s.pc t).owed, a.origRow ≠ x) → s.data x = after init order x) ∧
    s.failed = false ∧
    (∀ t tid a rest, s.pc t = .verify tid a rest ∨ s.pc t = .store tid a rest →
      (s.word a.origRow).tid < tid) ∧
    ∀ t accesses row type v data, s.pc t = .reload accesses row type v data → s.word row = v →
      v.lock = false ∧ s.data row = data ∧
        after init (serialOrder s.log) row = data := by
  have inv := SiloInv.of_reachable reached
  refine ⟨⟨serialOrder s.log, perm_serialOrder s.log, inv.replays,
    fun x none => (inv.current x none).symm⟩, inv.passes, fun t tid a rest pc => ?_,
    fun t accesses row type v data pc same => inv.returned pc same⟩
  have sound := inv.sound t
  rcases pc with pc | pc
  · rw [pc] at sound
    exact sound.2.1
  · rw [pc] at sound
    exact sound.2.1

/-- A transaction that overwrites what another one has read and not yet validated. -/
theorem silo_serializable_conflict :
    ∃ s : SiloState Nat Nat Nat, s.log = [⟨0, [(5, 0), (7, 0)], [(7, 9)]⟩] ∧ s.data 7 = 9 ∧
      s.word 7 = ⟨1, false⟩ ∧ s.failed = false ∧
        ∃ order : List (Entry Nat Nat), order.Perm s.log ∧ Replays (fun _ => 0) order := by
  obtain ⟨s, path, e⟩ := Machine.exists_along (siloMachine id true true (fun _ => 0) Nat) Free
    ⟨fun _ => ⟨0, false⟩, fun _ => 0, fun _ => 0, fun _ => .idle, 0, [], false⟩
    ([.begin 0, .getRow 0 7 .WR, .next 0, .next 0, .next 0, .modify 0 0 9, .begin 1,
      .getRow 1 7 .RD, .next 1, .next 1, .next 1, .getRow 0 5 .RD, .next 0, .next 0, .next 0,
      .finish 0] ++ List.replicate 18 (.next 0) ++ [.finish 1, .next 1, .next 1, .next 1])
    (fun s => (s.log, s.data 7, s.word 7)) ([⟨0, [(5, 0), (7, 0)], [(7, 9)]⟩], 9, ⟨1, false⟩)
    (by decide)
  simp only [Prod.mk.injEq] at e
  obtain ⟨⟨order, perm, replays, -⟩, passes, -⟩ :=
    silo_serializable id true true (fun _ => 0) s ⟨_, _, rfl, path⟩
  exact ⟨s, e.1, e.2.1, e.2.2, passes, order, perm, replays⟩

end DBx1000.Silo
