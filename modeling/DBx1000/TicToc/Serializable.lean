import Mathlib.Algebra.Order.Ring.Nat
import DBx1000.TicToc.Knowledge

/-!
# TicToc transactions are serializable by commit timestamps

A transaction commits at a time in all its leases, and its writes go behind everything
that has read what they replace. So the log, arranged by commit timestamps, replays.

## Main result

`tictoc_serializable`: in every run whose timestamps stay small and whose committing transactions
have no scan beyond the reach of `commit_wts`, the log replays in the order of commit timestamps.

## Proof strategy

`TxnInv` has for each thread what `TicToc.Knowledge` says of the point where it is. `TxnEffect`
names the steps by what they do to the words and the log; `Step` is what the other threads may
expect of them, and `Sound.shift` carries their knowledge on.
-/

namespace DBx1000.TicToc

open Transition SerialOrder

variable {ρ V τ : Type*}

/-! ### The invariant and the steps -/

variable [DecidableEq ρ] {init : ρ → V} {s s' : TxnState ρ V τ}

structure TxnInv (init : ρ → V) (s : TxnState ρ V τ) : Prop where
  locks : ∀ x, locked (s.word x) = true ↔ ∃ t, x ∈ (s.pc t).held
  apart : ∀ t u x, x ∈ (s.pc t).held → x ∈ (s.pc u).held → t = u
  sound : ∀ t, Sound init s (s.pc t)
  /-- From its write timestamp on, and up to the writes still owed, a row has its data. -/
  current : ∀ x c, (wordWts (s.word x)).toNat ≤ c →
    (∀ t d, (x, d) ∈ (s.pc t).pending → c < d) → s.at init x c = s.data x
  covered : ∀ e ∈ s.log, ∀ r ∈ e.reads,
    e.time ≤ readTs (s.word r.1) ∨ ∃ t, (r.1, e.time) ∈ (s.pc t).pending
  writes : ∀ e ∈ s.log, ∀ x, e.writesTo x → ∃ r ∈ e.reads, r.1 = x
  replays : Replays init (serialOrder s.log)
  increasing : ∀ x, s.log.Pairwise fun e f => e.writesTo x → f.writesTo x → e.time < f.time

namespace TxnInv

variable {t : τ}

theorem locked_of_held (inv : TxnInv init s) {x : ρ} (h : x ∈ (s.pc t).held) :
    locked (s.word x) = true :=
  (inv.locks x).mpr ⟨t, h⟩

/-- Only the owner of the lock owes a write. -/
theorem not_pending (inv : TxnInv init s) {x : ρ} (h : x ∈ (s.pc t).held) {u : τ} (ne : u ≠ t)
    (c : Nat) : (x, c) ∉ (s.pc u).pending :=
  fun pending => ne (inv.apart u t x (TxnPc.mem_held_of_pending pending) h)

theorem not_pending_of_free (inv : TxnInv init s) {x : ρ} (h : locked (s.word x) = false) (u : τ)
    (c : Nat) : (x, c) ∉ (s.pc u).pending := by
  intro pending
  rw [inv.locked_of_held (TxnPc.mem_held_of_pending pending)] at h
  cases h

/-! #### The commit -/

variable {v : Validation ρ V}

theorem commit_facts (inv : TxnInv init s) (pc : s.pc t = .commit v) :
    Started init s v ∧ (∀ a ∈ v.writeSet, Unchanged s a ∧ Raised s v a) ∧
      ∀ a ∈ v.readSet, Renewed init s v a := by
  have := inv.sound t
  rwa [pc] at this

theorem owed (inv : TxnInv init s) {rest : List (Access ρ V)} (pc : s.pc t = .write v rest) :
    (rest.map (·.origRow)).Nodup ∧ ∀ a ∈ rest, Owed init s v a := by
  have := inv.sound t
  rwa [pc] at this

omit [DecidableEq ρ] in
theorem mem_entry_reads {r : ρ × V} : r ∈ v.entry.reads ↔
    ∃ a ∈ v.readSet ++ v.writeSet, (a.origRow, a.read) = r := List.mem_map

omit [DecidableEq ρ] in
theorem entry_writesTo {x : ρ} : v.entry.writesTo x ↔ ∃ a ∈ v.writeSet, a.origRow = x := by
  simp [Entry.writesTo, Validation.entry]

/-- All who have read a row that the commit writes have smaller timestamps. -/
theorem before_of_writesTo (inv : TxnInv init s) (pc : s.pc t = .commit v) {x : ρ}
    (writes : v.entry.writesTo x) {e : Entry ρ V} (he : e ∈ s.log) {r : ρ × V}
    (hr : r ∈ e.reads) (same : r.1 = x) : e.time < v.commitWts.toNat := by
  obtain ⟨a, ha, rfl⟩ := entry_writesTo.mp writes
  have raised : readTs (s.word a.origRow) < v.commitWts.toNat :=
    ((inv.commit_facts pc).2.1 a ha).2
  rcases inv.covered e he r hr with le | ⟨u, pending⟩
  · rw [same] at le
    omega
  · have held : a.origRow ∈ (s.pc t).held := by
      rw [pc]
      exact List.mem_map.mpr ⟨a, ha, rfl⟩
    rw [same] at pending
    by_cases ne : u = t
    · rw [ne, pc] at pending
      cases pending
    · exact absurd pending (inv.not_pending held ne _)

theorem writers_before (inv : TxnInv init s) (pc : s.pc t = .commit v) {x : ρ}
    (writes : v.entry.writesTo x) {e : Entry ρ V} (he : e ∈ s.log) (we : e.writesTo x) :
    e.time < v.commitWts.toNat := by
  obtain ⟨r, hr, same⟩ := inv.writes e he x we
  exact inv.before_of_writesTo pc writes he hr same

/-- At the commit timestamp all accesses still have the values that they read. -/
theorem reads_at_commit (inv : TxnInv init s) (pc : s.pc t = .commit v) {a : Access ρ V}
    (ha : a ∈ v.readSet ++ v.writeSet) : s.at init a.origRow v.commitWts.toNat = a.read := by
  obtain ⟨started, own, renewed⟩ := inv.commit_facts pc
  have fresh := started.fresh a ha
  rcases List.mem_append.mp ha with ha | ha
  · obtain ⟨bound, le, known, -⟩ := renewed a ha
    exact known _ (started.above a ha) le
  · obtain ⟨same, raised⟩ := own a ha
    have held : a.origRow ∈ (s.pc t).held := by
      rw [pc]
      exact List.mem_map.mpr ⟨a, ha, rfl⟩
    have settled (u : τ) (d : Nat) (pending : (a.origRow, d) ∈ (s.pc u).pending) (c : Nat) :
        c < d := by
      by_cases ne : u = t
      · rw [ne, pc] at pending
        cases pending
      · exact absurd pending (inv.not_pending held ne d)
    have now : s.at init a.origRow v.commitWts.toNat = s.data a.origRow := by
      refine inv.current _ _ ?_ fun u d pending => settled u d pending _
      rw [Raised, readTs] at raised
      omega
    have then' : s.at init a.origRow a.wts.toNat = s.data a.origRow := by
      refine inv.current _ _ ?_ fun u d pending => settled u d pending _
      rw [show wordWts (s.word a.origRow) = a.wts from same]
    rw [now, ← then']
    exact fresh.known.1 _ (Nat.le_refl _) fresh.lease

theorem commit_replays (inv : TxnInv init s) (pc : s.pc t = .commit v) :
    Replays init (serialOrder (s.log ++ [v.entry])) := by
  rw [serialOrder_concat]
  refine inv.replays.place (sorted_serialOrder _) (fun r hr => ?_) fun f hf later r hr writes => ?_
  · obtain ⟨a, ha, rfl⟩ := mem_entry_reads.mp hr
    exact inv.reads_at_commit pc ha
  · have := inv.before_of_writesTo pc writes (mem_serialOrder.mp hf) hr rfl
    exact absurd later (Nat.lt_asymm this)

theorem at_commit_of_lt {s' : TxnState ρ V τ} (log : s'.log = s.log ++ [v.entry]) {x : ρ} {c : Nat}
    (lt : c < v.commitWts.toNat) : s'.at init x c = s.at init x c := by
  rw [TxnState.at, log, serialOrder_concat]
  exact valueAt_place_of_lt lt

theorem at_commit_of_not_writesTo {s' : TxnState ρ V τ} (log : s'.log = s.log ++ [v.entry])
    {x : ρ} (none : ¬ v.entry.writesTo x) (c : Nat) : s'.at init x c = s.at init x c := by
  rw [TxnState.at, log, serialOrder_concat]
  exact valueAt_place_of_not_writesTo (sorted_serialOrder _) none

theorem commit_owes (inv : TxnInv init s) (pc : s.pc t = .commit v)
    (small : v.commitWts.toNat < 2 ^ 48) {s' : TxnState ρ V τ} (word : s'.word = s.word)
    (log : s'.log = s.log ++ [v.entry]) {a : Access ρ V} (ha : a ∈ v.writeSet) :
    Owed init s' v a := by
  obtain ⟨started, own, -⟩ := inv.commit_facts pc
  refine ⟨small, ?_, fun c le => ?_⟩
  · rw [Raised, word]
    exact (own a ha).2
  · rw [TxnState.at, log, serialOrder_concat]
    refine valueAt_place_of_mem (sorted_serialOrder _) le (List.mem_map.mpr ⟨a, ha, rfl⟩) ?_ ?_
    · have rows := started.rows
      rw [List.map_append] at rows
      simpa [Validation.entry, Function.comp_def] using (List.nodup_append.mp rows).2.1
    · intro f hf later writes
      have := inv.writers_before pc (entry_writesTo.mpr ⟨a, ha, rfl⟩) (mem_serialOrder.mp hf) writes
      exact absurd later (Nat.lt_asymm this)

end TxnInv

/-! ### What a step does -/

theorem TxnState.setWord_word (x : ρ) (w : TsWord) (y : ρ) :
    (s.setWord x w).word y = if y = x then w else s.word y :=
  Function.update_apply ..

theorem Shift.of_mod {own : ρ → Prop} (log : s'.log = s.log)
    (mod : ∀ x, (s'.word x).toNat % 2 ^ 63 = (s.word x).toNat % 2 ^ 63) : Shift init s s' own :=
  .of_log log (fun x => (readTs_of_mod_eq (mod x)).ge) (fun x _ => (fields_of_mod_eq (mod x)).1)
    fun x _ => readTs_of_mod_eq (mod x)

theorem setWord_mod (x : ρ) (w : TsWord) (mod : w.toNat % 2 ^ 63 = (s.word x).toNat % 2 ^ 63)
    (y : ρ) : ((s.setWord x w).word y).toNat % 2 ^ 63 = (s.word y).toNat % 2 ^ 63 := by
  rw [TxnState.setWord_word]
  split
  · next e => rw [mod, e]
  · rfl

theorem word_of_renew {x y : ρ} {wts rts : TsWord} (le : wts ≤ rts) (small : rts.toNat < 2 ^ 48)
    (held : locked (s.word y) = true) :
    (s.setWord x (tryRenew (s.word x) wts rts).1).word y = s.word y := by
  rw [TxnState.setWord_word]
  split
  · next e => rw [← e]; exact (tryRenew_spec le small).2.2.2.1 held
  · rfl

variable [DecidableEq τ]

/-- What a step of thread `t` to `p` does. -/
inductive TxnEffect (s : TxnState ρ V τ) (t : τ) (p : TxnPc ρ V) : TxnState ρ V τ → Prop
  | quiet (held : p.held = (s.pc t).held) (pending : p.pending = (s.pc t).pending) :
      TxnEffect s t p (s.goto t p)
  | lock (x : ρ) (free : locked (s.word x) = false) (held : p.held = (s.pc t).held ++ [x])
      (pending : p.pending = (s.pc t).pending) :
      TxnEffect s t p ((s.setWord x (s.word x ||| lockBit)).goto t p)
  | unlock (x : ρ) (held : (s.pc t).held = x :: p.held) (last : x ∉ p.held)
      (pending : p.pending = (s.pc t).pending) :
      TxnEffect s t p ((s.unlock x).goto t p)
  | renew (x : ρ) (wts rts : TsWord) (le : wts ≤ rts) (small : rts.toNat < 2 ^ 48)
      (held : p.held = (s.pc t).held) (pending : p.pending = (s.pc t).pending) :
      TxnEffect s t p ((s.setWord x (tryRenew (s.word x) wts rts).1).goto t p)
  | commit (v : Validation ρ V) (source : s.pc t = .commit v) (target : p = .write v v.writeSet) :
      TxnEffect s t p { s.goto t p with log := s.log ++ [v.entry] }
  | write (v : Validation ρ V) (a : Access ρ V) (rest : List (Access ρ V))
      (source : s.pc t = .write v (a :: rest)) (target : p = .release v a rest) :
      TxnEffect s t p { (s.setWord a.origRow (writeWord (s.word a.origRow) v.commitWts)).goto t p
        with data := Function.update s.data a.origRow a.data }

namespace TxnEffect

variable {t : τ} {p : TxnPc ρ V}

theorem pc_eq (effect : TxnEffect s t p s') (u : τ) :
    s'.pc u = if u = t then p else s.pc u := by
  cases effect <;> exact Function.update_apply ..

theorem pc_self (effect : TxnEffect s t p s') : s'.pc t = p := by
  rw [effect.pc_eq, if_pos rfl]

theorem pc_of_ne (effect : TxnEffect s t p s') {u : τ} (ne : u ≠ t) : s'.pc u = s.pc u := by
  rw [effect.pc_eq, if_neg ne]

theorem grows (inv : TxnInv init s) (effect : TxnEffect s t p s') (x : ρ) :
    readTs (s.word x) ≤ readTs (s'.word x) := by
  cases effect with
  | quiet | commit => exact Nat.le_refl _
  | lock y => exact (readTs_of_mod_eq (setWord_mod y _ (lock_mod _) x)).ge
  | unlock y => exact (readTs_of_mod_eq (setWord_mod y _ (release_mod _) x)).ge
  | renew y wts rts le small =>
    change _ ≤ readTs ((s.setWord y _).word x)
    rw [TxnState.setWord_word]
    split
    · next e => rw [e]; exact (tryRenew_spec le small).1
    · exact Nat.le_refl _
  | write v a rest source =>
    change _ ≤ readTs ((s.setWord a.origRow _).word x)
    rw [TxnState.setWord_word]
    split
    · next e =>
      have owed := (inv.owed source).2 a List.mem_cons_self
      rw [e, readTs_writeWord owed.small]
      exact Nat.le_of_lt owed.raised
    · exact Nat.le_refl _

/-- The rows that others have locked stay as they are. -/
theorem word_of_held (inv : TxnInv init s) (effect : TxnEffect s t p s') {u : τ} (ne : u ≠ t)
    {x : ρ} (held : x ∈ (s.pc u).held) : s'.word x = s.word x := by
  have elsewhere (y : ρ) (own : y ∈ (s.pc t).held) (w : TsWord) :
      (s.setWord y w).word x = s.word x := by
    rw [TxnState.setWord_word, if_neg]
    rintro rfl
    exact ne (inv.apart u t x held own)
  cases effect with
  | quiet | commit => rfl
  | lock y free =>
    change (s.setWord y _).word x = _
    rw [TxnState.setWord_word, if_neg]
    rintro rfl
    rw [inv.locked_of_held held] at free
    cases free
  | unlock y own => exact elsewhere y (own ▸ List.mem_cons_self) _
  | renew y wts rts le small => exact word_of_renew le small (inv.locked_of_held held)
  | write v a rest source =>
    refine elsewhere a.origRow ?_ _
    rw [source]
    exact List.mem_cons_self

theorem shift_of_word {own : ρ → Prop} (inv : TxnInv init s) (effect : TxnEffect s t p s')
    (log : s'.log = s.log) (same : ∀ x, own x → s'.word x = s.word x) : Shift init s s' own :=
  .of_log log (effect.grows inv) (fun x hx => by rw [same x hx]) fun x hx => by rw [same x hx]

/-- A commit has the only effect on the past that others can see, and it leaves them their
leases and their rows. -/
theorem at_eq (inv : TxnInv init s) (effect : TxnEffect s t p s') (x : ρ) (c : Nat)
    (kept : c ≤ readTs (s.word x) ∨ ∃ u ≠ t, x ∈ (s.pc u).held) :
    s'.at init x c = s.at init x c := by
  cases effect with
  | commit v source =>
    by_cases writes : v.entry.writesTo x
    · obtain ⟨a, ha, rfl⟩ := TxnInv.entry_writesTo.mp writes
      rcases kept with le | ⟨u, ne, held⟩
      · have raised : readTs (s.word a.origRow) < _ := ((inv.commit_facts source).2.1 a ha).2
        exact TxnInv.at_commit_of_lt rfl (by omega)
      · refine absurd (inv.apart u t _ held ?_) ne
        rw [source]
        exact List.mem_map.mpr ⟨a, ha, rfl⟩
    · exact TxnInv.at_commit_of_not_writesTo rfl writes c
  | _ => rfl

theorem shift (inv : TxnInv init s) (effect : TxnEffect s t p s') {u : τ} (ne : u ≠ t) :
    Shift init s s' (· ∈ (s.pc u).held) where
  grows := effect.grows inv
  past x c le := effect.at_eq inv x c (.inl le)
  wts x held := by rw [effect.word_of_held inv ne held]
  rts x held := by rw [effect.word_of_held inv ne held]
  value x held c := effect.at_eq inv x c (.inr ⟨u, ne, held⟩)

theorem sound (inv : TxnInv init s) (effect : TxnEffect s t p s') (own : Sound init s' p) (u : τ) :
    Sound init s' (s'.pc u) := by
  by_cases e : u = t
  · rw [e, effect.pc_self]
    exact own
  · rw [effect.pc_of_ne e]
    exact (inv.sound u).shift (effect.shift inv e)

/-- The lock bit changes with the lists of locked rows. -/
theorem held (inv : TxnInv init s) (effect : TxnEffect s t p s') :
    (∀ x, locked (s'.word x) = true ↔ ∃ u, x ∈ (s'.pc u).held) ∧
    ∀ u w x, x ∈ (s'.pc u).held → x ∈ (s'.pc w).held → u = w := by
  have pc := effect.pc_eq
  -- a step that takes and gives up no lock leaves the owners as they are
  have same (kept : p.held = (s.pc t).held) (u : τ) : (s'.pc u).held = (s.pc u).held := by
    rw [pc]
    split
    · next e => rw [kept, e]
    · rfl
  have keep (kept : p.held = (s.pc t).held) (lock : ∀ x, locked (s'.word x) = locked (s.word x)) :
      (∀ x, locked (s'.word x) = true ↔ ∃ u, x ∈ (s'.pc u).held) ∧
      ∀ u w x, x ∈ (s'.pc u).held → x ∈ (s'.pc w).held → u = w := by
    refine ⟨fun x => ?_, fun u w x hu hw => ?_⟩
    · rw [lock, inv.locks]
      exact exists_congr fun u => by rw [same kept]
    · rw [same kept] at hu hw
      exact inv.apart u w x hu hw
  cases effect with
  | quiet kept => exact keep kept fun _ => rfl
  | lock y free grown =>
    have mem (u : τ) (x : ρ) : x ∈ (((s.setWord y (s.word y ||| lockBit)).goto t p).pc u).held ↔
        x ∈ (s.pc u).held ∨ u = t ∧ x = y := by
      rw [pc]
      split
      · next e => rw [grown, e, List.mem_append, List.mem_singleton]; simp
      · next ne => simp [ne]
    -- the row was free, so nobody held it
    have none (u : τ) : y ∉ (s.pc u).held := fun held => by
      rw [inv.locked_of_held held] at free
      cases free
    refine ⟨fun x => ?_, fun u w x hu hw => ?_⟩
    · simp only [mem]
      change locked ((s.setWord y _).word x) = true ↔ _
      rw [TxnState.setWord_word]
      split
      · next e => simp [locked_lock, e]
      · next ne => rw [inv.locks]; simp [ne]
    · rcases (mem u x).mp hu with old | ⟨rfl, rfl⟩ <;> rcases (mem w x).mp hw with old' | ⟨rfl, e⟩
      · exact inv.apart u w x old old'
      · exact absurd (e ▸ old) (none u)
      · exact absurd old' (none w)
      · rfl
  | unlock y own last =>
    have mem (u : τ) (x : ρ) : x ∈ (((s.unlock y).goto t p).pc u).held ↔
        x ∈ (s.pc u).held ∧ x ≠ y := by
      rw [pc]
      split
      · next e =>
        rw [e, own, List.mem_cons]
        exact ⟨fun h => ⟨.inr h, fun e => last (e ▸ h)⟩, fun h => h.1.resolve_left h.2⟩
      · next ne =>
        refine ⟨fun h => ⟨h, fun e => ?_⟩, And.left⟩
        -- only `t` held the row
        exact ne (inv.apart u t y (e ▸ h) (own ▸ List.mem_cons_self))
    refine ⟨fun x => ?_, fun u w x hu hw => ?_⟩
    · simp only [mem]
      change locked ((s.setWord y _).word x) = true ↔ _
      rw [TxnState.setWord_word]
      split
      · next e => simp [locked_release, e]
      · next ne => rw [inv.locks]; simp [ne]
    · exact inv.apart u w x ((mem u x).mp hu).1 ((mem w x).mp hw).1
  | renew y wts rts le small kept =>
    -- a renewal writes the word of a row that it may not have locked, but never the lock bit
    refine keep kept fun x => ?_
    change locked ((s.setWord y _).word x) = _
    rw [TxnState.setWord_word]
    split
    · next e => rw [e]; exact (tryRenew_spec le small).2.2.1
    · rfl
  | commit v source target =>
    refine keep ?_ fun _ => rfl
    rw [source, target]
    rfl
  -- the commit timestamp is too small to reach the lock bit
  | write v a rest source target =>
    refine keep ?_ fun x => ?_
    · rw [source, target]
      rfl
    · change locked ((s.setWord a.origRow _).word x) = _
      rw [TxnState.setWord_word]
      split
      · next e => rw [e, locked_writeWord ((inv.owed source).2 a List.mem_cons_self).small]
      · rfl

/-- Nobody but the acting transaction changes what it owes. -/
theorem pending_of_ne (effect : TxnEffect s t p s') {u : τ} (ne : u ≠ t) :
    (s'.pc u).pending = (s.pc u).pending := by
  rw [effect.pc_of_ne ne]

theorem pending_keep (effect : TxnEffect s t p s') (keep : p.pending = (s.pc t).pending) (u : τ) :
    (s'.pc u).pending = (s.pc u).pending := by
  rw [effect.pc_eq]
  split
  · next e => rw [keep, e]
  · rfl

/-- Rows that are not written keep their data, and their write timestamps do not shrink. -/
theorem current (inv : TxnInv init s) (effect : TxnEffect s t p s') (x : ρ) (c : Nat)
    (le : (wordWts (s'.word x)).toNat ≤ c)
    (none : ∀ u d, (x, d) ∈ (s'.pc u).pending → c < d) : s'.at init x c = s'.data x := by
  have mod (lo : (wordWts (s.word x)).toNat ≤ c) (keep : p.pending = (s.pc t).pending) :
      s.at init x c = s.data x :=
    inv.current x c lo fun u d h => none u d (effect.pending_keep keep u ▸ h)
  have whole := effect
  cases effect with
  | quiet kept keep => exact mod le keep
  | lock y free grown keep =>
    refine mod ?_ keep
    rwa [← (fields_of_mod_eq (setWord_mod y _ (lock_mod _) x)).1]
  | unlock y own last keep =>
    refine mod ?_ keep
    rwa [← (fields_of_mod_eq (setWord_mod y _ (release_mod _) x)).1]
  | renew y wts rts lo small kept keep =>
    -- a renewal does not lower the write timestamp
    refine mod (Nat.le_trans ?_ le) keep
    change _ ≤ (wordWts ((s.setWord y _).word x)).toNat
    rw [TxnState.setWord_word]
    split
    · next e => rw [e]; exact (tryRenew_spec lo small).2.1
    · exact Nat.le_refl _
  | commit v source target =>
    -- before the commit `t` owed nothing, so the row had its data up to `c`
    have others (u : τ) (d : Nat) (h : (x, d) ∈ (s.pc u).pending) : c < d := by
      by_cases e : u = t
      · rw [e, source] at h
        cases h
      · exact none u d (by rwa [whole.pending_of_ne e])
    have before : s.at init x c = s.data x := inv.current x c le others
    by_cases writes : v.entry.writesTo x
    · obtain ⟨a, ha, rfl⟩ := TxnInv.entry_writesTo.mp writes
      -- the row is written at the commit timestamp, which is after `c`
      have lt : c < v.commitWts.toNat := by
        refine none t _ ?_
        rw [whole.pc_self, target]
        exact List.mem_map.mpr ⟨a, ha, rfl⟩
      exact (TxnInv.at_commit_of_lt rfl lt).trans before
    · -- the entry does not write the row
      exact (TxnInv.at_commit_of_not_writesTo rfl writes c).trans before
  | write v a rest source target =>
    have owed := (inv.owed source).2 a List.mem_cons_self
    change s.at init x c = Function.update s.data a.origRow a.data x
    change (wordWts ((s.setWord a.origRow _).word x)).toNat ≤ c at le
    rw [TxnState.setWord_word] at le
    rw [Function.update_apply]
    split
    · next e =>
      rw [if_pos e, wordWts_writeWord owed.small] at le
      rw [e]
      -- from the new write timestamp on the row has what has just been stored
      exact owed.value c le
    · next ne =>
      rw [if_neg ne] at le
      refine inv.current x c le fun u d h => none u d ?_
      by_cases e : u = t
      · rw [e, whole.pc_self, target]
        rw [e, source] at h
        exact (List.mem_cons.mp h).resolve_left fun e => ne (Prod.mk.inj e).1
      · rwa [whole.pending_of_ne e]

/-- A read of a committed transaction is covered by the lease of the row or, if the transaction
has yet to write the row, by the timestamp of the write. -/
theorem covered (inv : TxnInv init s) (effect : TxnEffect s t p s') {e : Entry ρ V}
    (he : e ∈ s'.log) {r : ρ × V} (hr : r ∈ e.reads) :
    e.time ≤ readTs (s'.word r.1) ∨ ∃ u, (r.1, e.time) ∈ (s'.pc u).pending := by
  -- an older entry is covered as before, since read timestamps only grow
  have old (he : e ∈ s.log) (keep : ∀ u, (r.1, e.time) ∈ (s.pc u).pending →
      (r.1, e.time) ∈ (s'.pc u).pending) :
      e.time ≤ readTs (s'.word r.1) ∨ ∃ u, (r.1, e.time) ∈ (s'.pc u).pending :=
    (inv.covered e he r hr).imp (fun le => Nat.le_trans le (effect.grows inv _))
      fun ⟨u, h⟩ => ⟨u, keep u h⟩
  have keep (log : s'.log = s.log) (keep : p.pending = (s.pc t).pending) :
      e.time ≤ readTs (s'.word r.1) ∨ ∃ u, (r.1, e.time) ∈ (s'.pc u).pending :=
    old (log ▸ he) fun u h => by rwa [effect.pending_keep keep]
  have whole := effect
  cases effect with
  | quiet _ kept | lock _ _ _ kept | unlock _ _ _ kept | renew _ _ _ _ _ _ kept =>
    exact keep rfl kept
  | commit v source target =>
    rcases List.mem_append.mp he with he | he
    · refine old he fun u h => ?_
      by_cases e : u = t
      · rw [e, source] at h
        cases h
      · rwa [whole.pending_of_ne e]
    · obtain rfl := List.mem_singleton.mp he
      obtain ⟨a, ha, rfl⟩ := TxnInv.mem_entry_reads.mp hr
      rcases List.mem_append.mp ha with ha | ha
      · -- a row that was only read has its lease up to the commit timestamp
        obtain ⟨bound, le, -, reach⟩ := (inv.commit_facts source).2.2 a ha
        exact .inl (Nat.le_trans le reach)
      · -- a row that is written is owed, at the commit timestamp
        refine .inr ⟨t, ?_⟩
        rw [whole.pc_self, target]
        exact List.mem_map.mpr ⟨a, ha, rfl⟩
  | write v a rest source target =>
    by_cases same : r.1 = a.origRow
    · -- the row is written now, at the timestamp of its writer
      have owed := (inv.owed source).2 a List.mem_cons_self
      have now : readTs ((s.setWord a.origRow (writeWord (s.word a.origRow) v.commitWts)).word r.1)
          = v.commitWts.toNat := by
        rw [TxnState.setWord_word, if_pos same, readTs_writeWord owed.small]
      refine .inl (Nat.le_trans ?_ now.ge)
      rcases inv.covered e he r hr with le | ⟨u, h⟩
      · have raised : readTs (s.word a.origRow) < _ := owed.raised
        rw [same] at le
        omega
      · -- another transaction cannot owe a write to a row that `t` has locked
        have locks : a.origRow ∈ (s.pc t).held := by
          rw [source]
          exact List.mem_cons_self
        obtain rfl : u = t := inv.apart u t _ (same ▸ TxnPc.mem_held_of_pending h) locks
        rw [source] at h
        obtain ⟨b, -, e⟩ := List.mem_map.mp h
        exact (Prod.mk.inj e).2.ge
    · refine old he fun u h => ?_
      by_cases e : u = t
      · rw [e, whole.pc_self, target]
        rw [e, source] at h
        exact (List.mem_cons.mp h).resolve_left fun e => same (Prod.mk.inj e).1
      · rwa [whole.pending_of_ne e]

theorem log_cases (effect : TxnEffect s t p s') :
    s'.log = s.log ∨ ∃ v, s.pc t = .commit v ∧ s'.log = s.log ++ [v.entry] := by
  cases effect with
  | commit v source => exact .inr ⟨v, source, rfl⟩
  | _ => exact .inl rfl

/-- The invariant after a step whose thread knows what it has to. -/
theorem txnInv (inv : TxnInv init s) (effect : TxnEffect s t p s') (own : Sound init s' p) :
    TxnInv init s' where
  locks := (effect.held inv).1
  apart := (effect.held inv).2
  sound := effect.sound inv own
  current := effect.current inv
  covered _ he _ hr := effect.covered inv he hr
  writes e he x writes := by
    rcases effect.log_cases with log | ⟨v, -, log⟩
    · exact inv.writes e (log ▸ he) x writes
    · rw [log] at he
      rcases List.mem_append.mp he with he | he
      · exact inv.writes e he x writes
      · obtain rfl := List.mem_singleton.mp he
        obtain ⟨a, ha, rfl⟩ := TxnInv.entry_writesTo.mp writes
        exact ⟨_, TxnInv.mem_entry_reads.mpr ⟨a, List.mem_append_right _ ha, rfl⟩, rfl⟩
  replays := by
    rcases effect.log_cases with log | ⟨v, pc, log⟩
    · exact log ▸ inv.replays
    · exact log ▸ inv.commit_replays pc
  increasing x := by
    rcases effect.log_cases with log | ⟨v, pc, log⟩
    · exact log ▸ inv.increasing x
    · rw [log]
      refine List.pairwise_append.mpr ⟨inv.increasing x, List.pairwise_singleton .., ?_⟩
      rintro e he f hf we wf
      obtain rfl := List.mem_singleton.mp hf
      exact inv.writers_before pc wf he we

end TxnEffect

/-! ### Every step of a transaction has such an effect -/

/-- The commit timestamp of a transaction that has computed its last one. -/
def TxnPc.commitWts : TxnPc ρ V → TsWord
  | .renew v _ | .commit v => v.commitWts
  | _ => 0

def TxnPc.accesses : TxnPc ρ V → List (Access ρ V)
  | .running accesses => accesses
  | _ => []

/-- Timestamps stay below `2^48`, -/
def Small (s : TxnState ρ V τ) : TxnLabel ρ V τ → Prop
  | .next t => (s.pc t).commitWts.toNat < 2 ^ 48
  | _ => True

/-- and the loop that computes `commit_wts`, which looks at reads and writes only, would not
change it for a scan: some read or write raises it as far as the scan needs. -/
def Counted (s : TxnState ρ V τ) : TxnLabel ρ V τ → Prop
  | .finish t => ∀ a ∈ (s.pc t).accesses, a.type ≠ .RD → a.type ≠ .WR →
      a.wts = 0 ∨ ∃ b ∈ (s.pc t).accesses,
        (b.type = .RD ∧ a.wts ≤ b.wts) ∨ (b.type = .WR ∧ a.wts ≤ b.rts + 1)
  | _ => True

instance (s : TxnState ρ V τ) : (l : TxnLabel ρ V τ) → Decidable (Small s l)
  | .next t => inferInstanceAs (Decidable ((s.pc t).commitWts.toNat < 2 ^ 48))
  | .begin _ | .getRow .. | .modify .. | .finish _ | .rollback _ => isTrue trivial

instance (s : TxnState ρ V τ) : (l : TxnLabel ρ V τ) → Decidable (Counted s l)
  | .finish t => inferInstanceAs (Decidable (∀ a ∈ (s.pc t).accesses, a.type ≠ .RD → a.type ≠ .WR →
      a.wts = 0 ∨ ∃ b ∈ (s.pc t).accesses,
        (b.type = .RD ∧ a.wts ≤ b.wts) ∨ (b.type = .WR ∧ a.wts ≤ b.rts + 1)))
  | .begin _ | .getRow .. | .modify .. | .next _ | .rollback _ => isTrue trivial

omit [DecidableEq τ] in
/-- An access to a row without a lock. -/
theorem TxnInv.fresh_access (inv : TxnInv init s) {x : ρ} (free : locked (s.word x) = false)
    (type : AccessType) : Fresh init s (s.access x type) := by
  have rts : (s.access x type).rts.toNat = readTs (s.word x) := toNat_getRts _
  refine ⟨?_, fun c lo _ => ?_, rts.le⟩
  · rw [rts]
    exact Nat.le_add_right _ _
  · exact inv.current x c lo fun u d h => absurd h (inv.not_pending_of_free free u d)

omit [DecidableEq τ] in
/-- Whoever owes a write to a row has a timestamp above its lease. -/
theorem TxnInv.readTs_lt_of_pending (inv : TxnInv init s) {x : ρ} {d : Nat} {t : τ}
    (h : (x, d) ∈ (s.pc t).pending) : readTs (s.word x) < d := by
  have sound := inv.sound t
  cases pc : s.pc t with
  | write v rest | release v b rest =>
    rw [pc] at h sound
    obtain ⟨a, ha, e⟩ := List.mem_map.mp h
    cases e
    exact (sound.2 a ha).raised
  | _ => rw [pc] at h; cases h

omit [DecidableEq τ] in
/-- A granted renewal finds the version that was read, and it is still good. -/
theorem TxnInv.at_of_tryRenew (inv : TxnInv init s) {a : Access ρ V} {rts : TsWord}
    (fresh : Fresh init s a) (lo : a.wts ≤ rts) (small : rts.toNat < 2 ^ 48)
    (ok : (tryRenew (s.word a.origRow) a.wts rts).2 = true) {c : Nat} (le : a.wts.toNat ≤ c)
    (ge : c ≤ rts.toNat) : s.at init a.origRow c = a.read := by
  obtain ⟨-, -, -, still, granted⟩ := tryRenew_spec (v := s.word a.origRow) lo small
  obtain ⟨version, reach⟩ := granted ok
  have none (u : τ) (d : Nat) (h : (a.origRow, d) ∈ (s.pc u).pending) : rts.toNat < d := by
    rw [still (inv.locked_of_held (TxnPc.mem_held_of_pending h))] at reach
    exact Nat.lt_of_le_of_lt reach (inv.readTs_lt_of_pending h)
  have now (c : Nat) (le : a.wts.toNat ≤ c) (ge : c ≤ rts.toNat) :
      s.at init a.origRow c = s.data a.origRow :=
    inv.current _ c (version ▸ le) fun u d h => Nat.lt_of_le_of_lt ge (none u d h)
  rw [now c le ge, ← now a.wts.toNat (Nat.le_refl _) lo]
  exact fresh.known.1 _ (Nat.le_refl _) fresh.lease

omit [DecidableEq τ] in
/-- The sets that validation starts with. -/
theorem started_of_running {t : τ} {accesses : List (Access ρ V)} (key : ρ → Nat)
    (sound : Sound init s (.running accesses)) (pc : s.pc t = .running accesses)
    (counted : Counted s (.finish t)) :
    Started init s ⟨readSet accesses, writeSet key accesses, commitTs accesses⟩ := by
  have perm := perm_sets key accesses
  rw [Counted, pc] at counted
  refine ⟨?_, fun a ha => sound.2 a (perm.mem_iff.mp ha), fun a ha => ?_⟩
  · exact ((perm.map _).nodup_iff).mpr sound.1
  · obtain ⟨mem, kind⟩ := List.mem_filter.mp ha
    have kind : a.type ≠ .WR := by simpa using kind
    by_cases rd : a.type = .RD
    · exact (le_commitTs mem).1 rd
    · rcases counted a mem rd kind with zero | ⟨b, hb, ⟨rd, le⟩ | ⟨wr, le⟩⟩
      · rw [zero]
        exact Nat.zero_le _
      · exact BitVec.le_trans le ((le_commitTs hb).1 rd)
      · exact BitVec.le_trans le ((le_commitTs hb).2 wr)

section Validate

variable {t : τ} {p q : TxnPc ρ V} {v : Validation ρ V} {a : Access ρ V}
  {rest : List (Access ρ V)}

/-- A step of thread `t` after which it knows what it has to. -/
def Step (init : ρ → V) (s : TxnState ρ V τ) (t : τ) (s' : TxnState ρ V τ) : Prop :=
  ∃ p, TxnEffect s t p s' ∧ Sound init s' p

theorem Step.quiet (pc : s.pc t = q) (own : Sound init s p) (held : p.held = q.held)
    (pending : p.pending = q.pending) : Step init s t (s.goto t p) :=
  ⟨p, .quiet (by rw [pc, held]) (by rw [pc, pending]), own.shift (.of_mod rfl fun _ => rfl)⟩

/-- The step to the next call when the calls before it have released all locks. -/
theorem Step.startLocking (preAbort : Bool) (pc : s.pc t = q) (held : q.held = [])
    (pending : q.pending = []) (started : Started init s v) :
    Step init s t (s.goto t (TicToc.startLocking preAbort v)) := by
  cases preAbort with
  | true => exact .quiet (p := .preWrite ..) pc started held.symm pending.symm
  | false => exact .quiet (p := .lock ..) pc ⟨started, rfl, nofun⟩ held.symm pending.symm

theorem Step.release (pc : s.pc t = q) (own : Sound init s p)
    (held : q.held = a.origRow :: p.held) (last : a.origRow ∉ p.held)
    (pending : p.pending = q.pending) : Step init s t ((s.unlock a.origRow).goto t p) :=
  ⟨p, .unlock a.origRow (by rw [pc, held]) last (by rw [pc, pending]),
    own.shift (.of_mod rfl (setWord_mod _ _ (release_mod _)))⟩

end Validate

omit [DecidableEq ρ] in
theorem toNat_getRts_add_one (w : TsWord) : (getRts w + 1).toNat = readTs w + 1 := by
  have := wordWts_lt w
  have := wordDelta_lt w
  rw [BitVec.toNat_add, toNat_getRts, readTs]
  exact Nat.mod_eq_of_lt (by rw [show (1 : TsWord).toNat = 1 by decide]; omega)

section Cases

variable {preAbort noWait : Bool} {t : τ} {v : Validation ρ V} {a : Access ρ V}
  {held rest : List (Access ρ V)}

omit [DecidableEq τ] in
/-- No row stands in the write set twice. -/
theorem Started.writeRows (started : Started init s v) :
    (v.writeSet.map (·.origRow)).Nodup := by
  have rows := started.rows
  rw [List.map_append] at rows
  exact (List.nodup_append.mp rows).2.1

omit [DecidableEq τ] in
theorem Started.heldRows (started : Started init s v) (parts : v.writeSet = held ++ rest) :
    (held.map (·.origRow)).Nodup := by
  have rows := started.writeRows
  rw [parts, List.map_append] at rows
  exact (List.nodup_append.mp rows).1

/-- `try_lock` on the next row of the write set, if there is one. -/
theorem step_of_lock (inv : TxnInv init s) (pc : s.pc t = .lock v held rest)
    (h : validate preAbort noWait s t = some s') : Step init s t s' := by
  have sound := inv.sound t
  unfold validate at h
  rw [pc] at h sound
  obtain ⟨started, parts, same⟩ := sound
  cases rest with
  | nil =>
    cases h
    rw [List.append_nil] at parts
    refine .quiet (p := .getRts ..) pc ⟨started, ?_, [], rfl, nofun⟩ ?_ rfl
    · exact parts ▸ same
    · exact congrArg (List.map (·.origRow)) parts
  | cons a rest =>
    dsimp only at h
    split at h
    · -- somebody has the lock: back off, or wait
      split at h <;> cases h
      exact .quiet (p := .backOff ..) pc ⟨started, started.heldRows parts⟩ rfl rfl
    · next free =>
      cases h
      refine ⟨_, .lock a.origRow (by simpa using free) ?_ ?_, ?_⟩
      · rw [pc]
        rfl
      · rw [pc]
        rfl
      · exact Sound.shift (p := .check v held a rest) ⟨started, parts, same⟩
          (.of_mod rfl (setWord_mod _ _ (lock_mod _)))

/-- The comparison of the `wts` of a row that has just been locked. -/
theorem step_of_check (inv : TxnInv init s) (pc : s.pc t = .check v held a rest)
    (h : validate preAbort noWait s t = some s') : Step init s t s' := by
  have sound := inv.sound t
  unfold validate at h
  rw [pc] at h sound
  obtain ⟨started, parts, same⟩ := sound
  rw [List.append_cons] at parts
  dsimp only at h
  split at h <;> cases h
  · refine .quiet (p := .abort ..) pc (started.heldRows parts) ?_ rfl
    exact List.map_append
  · next now =>
    refine .quiet (p := .lock ..) pc ⟨started, parts, fun b hb => ?_⟩ ?_ rfl
    · rcases List.mem_append.mp hb with hb | hb
      · exact same b hb
      · exact List.mem_singleton.mp hb ▸ not_not.mp now
    · exact List.map_append

/-- The load of the `rts` of a locked row: `commit_wts` is above it, or will be raised. -/
theorem step_of_getRts (inv : TxnInv init s) (pc : s.pc t = .getRts v rest)
    (h : validate preAbort noWait s t = some s') : Step init s t s' := by
  have sound := inv.sound t
  unfold validate at h
  rw [pc] at h sound
  obtain ⟨started, same, done, parts, raised⟩ := sound
  cases rest with
  | nil =>
    cases h
    rw [List.append_nil] at parts
    refine .quiet (p := .renew ..) pc ⟨started, ?_, [], rfl, nofun⟩ rfl rfl
    exact fun a ha => ⟨same a ha, raised a (parts ▸ ha)⟩
  | cons a rest =>
    dsimp only at h
    have next := toNat_getRts_add_one (s.word a.origRow)
    split at h <;> cases h
    · next gt =>
      have gt : v.commitWts.toNat < (getRts (s.word a.origRow) + 1).toNat := gt
      -- the second load takes the timestamp that is there then
      refine .quiet (p := .raise ..) pc ⟨started, same, ⟨done, parts, raised⟩, ?_⟩ rfl rfl
      omega
    · next le =>
      have le : (getRts (s.word a.origRow) + 1).toNat ≤ v.commitWts.toNat :=
        BitVec.not_lt.mp le
      refine .quiet (p := .getRts ..) pc ⟨started, same, done ++ [a], ?_, ?_⟩ rfl rfl
      · -- the row is behind the lease of its readers
        rw [parts, List.append_cons]
      · intro b hb
        rcases List.mem_append.mp hb with hb | hb
        · exact raised b hb
        · obtain rfl := List.mem_singleton.mp hb
          rw [Raised]
          omega

/-- The second load of the `rts`: the word is the thread's own, so it is still the same. -/
theorem step_of_raise (inv : TxnInv init s) (pc : s.pc t = .raise v a rest)
    (h : validate preAbort noWait s t = some s') : Step init s t s' := by
  have sound := inv.sound t
  unfold validate at h
  rw [pc] at h sound
  cases h
  obtain ⟨started, same, ⟨done, parts, raised⟩, le⟩ := sound
  have next := toNat_getRts_add_one (s.word a.origRow)
  refine .quiet (p := .getRts ..) pc ⟨⟨started.rows, started.fresh, fun b hb => ?_⟩, same,
    done ++ [a], ?_, fun b hb => ?_⟩ rfl rfl
  · have below : b.wts.toNat ≤ v.commitWts.toNat := started.above b hb
    rw [BitVec.le_def, next]
    omega
  · rw [parts, List.append_cons]
  · rw [Raised, next]
    rcases List.mem_append.mp hb with hb | hb
    · have lt : readTs (s.word b.origRow) < v.commitWts.toNat := raised b hb
      omega
    · obtain rfl := List.mem_singleton.mp hb
      omega

omit [DecidableEq τ] in
/-- The reads up to `a` are good at `commit_wts` when those before it are, and `a` is. -/
theorem renewed_snoc {done : List (Access ρ V)} (ha : Renewed init s v a)
    (old : ∀ b ∈ done, Renewed init s v b) : ∀ b ∈ done ++ [a], Renewed init s v b := by
  intro b hb
  rcases List.mem_append.mp hb with hb | hb
  · exact old b hb
  · exact List.mem_singleton.mp hb ▸ ha

/-- `try_renew` for a read whose lease does not reach `commit_wts`. A renewal changes the word
of the row, so all that is known of the others is taken along. -/
theorem step_of_renew_short (inv : TxnInv init s) (pc : s.pc t = .renew v (a :: rest))
    (small : v.commitWts.toNat < 2 ^ 48) (short : a.rts < v.commitWts)
    (h : validate preAbort noWait s t = some s') : Step init s t s' := by
  have sound := inv.sound t
  unfold validate at h
  rw [pc] at h sound
  obtain ⟨started, own, done, parts, renewed⟩ := sound
  have mem : a ∈ v.readSet := parts ▸ List.mem_append_right _ List.mem_cons_self
  have fresh := started.fresh a (List.mem_append_left _ mem)
  have lo := started.above a mem
  have effect {p : TxnPc ρ V} (held : p.held = (s.pc t).held)
      (pending : p.pending = (s.pc t).pending) :=
    TxnEffect.renew a.origRow a.wts v.commitWts lo small held pending
  dsimp only at h
  rw [if_pos short] at h
  cases ok : (tryRenew (s.word a.origRow) a.wts v.commitWts).2 with
  | false =>
    rw [ok] at h
    cases h
    -- `try_renew` has not found the version that was read
    exact ⟨.abort v.writeSet, effect (by rw [pc]; rfl) (by rw [pc]; rfl), started.writeRows⟩
  | true =>
    rw [ok] at h
    cases h
    have effect := effect (p := .renew v rest) (by rw [pc]; rfl) (by rw [pc]; rfl)
    -- the lease of a row that somebody else has locked is not changed
    have shift : Shift init s _ (fun x => locked (s.word x) = true) :=
      effect.shift_of_word inv rfl fun x held => word_of_renew lo small held
    refine ⟨.renew v rest, effect, started.shift shift, fun b hb => ?_, done ++ [a], ?_,
      renewed_snoc ?_ fun b hb => (renewed b hb).shift shift⟩
    · have held : locked (s.word b.origRow) = true := by
        refine inv.locked_of_held (t := t) ?_
        rw [pc]
        exact List.mem_map.mpr ⟨b, hb, rfl⟩
      exact ⟨(own b hb).1.shift shift held, (own b hb).2.shift shift held⟩
    · rw [parts, List.append_cons]
    · refine ⟨v.commitWts.toNat, Nat.le_refl _, fun c le ge => ?_, ?_⟩
      · -- the row has the value that was read up to the commit timestamp
        exact inv.at_of_tryRenew fresh lo small ok le ge
      · change _ ≤ readTs ((s.setWord a.origRow _).word a.origRow)
        rw [TxnState.setWord_word, if_pos rfl]
        exact ((tryRenew_spec lo small).2.2.2.2 ok).2

/-- The validation of the reads. -/
theorem step_of_renew (inv : TxnInv init s) (pc : s.pc t = .renew v rest)
    (small : v.commitWts.toNat < 2 ^ 48) (h : validate preAbort noWait s t = some s') :
    Step init s t s' := by
  cases rest with
  | nil =>
    have sound := inv.sound t
    unfold validate at h
    rw [pc] at h sound
    obtain ⟨started, own, done, parts, renewed⟩ := sound
    cases h
    rw [List.append_nil] at parts
    exact .quiet (p := .commit v) pc ⟨started, own, parts ▸ renewed⟩ rfl rfl
  | cons a rest =>
    by_cases short : a.rts < v.commitWts
    · exact step_of_renew_short inv pc small short h
    · -- the lease that came with the copy is long enough
      have sound := inv.sound t
      unfold validate at h
      rw [pc] at h sound
      obtain ⟨started, own, done, parts, renewed⟩ := sound
      dsimp only at h
      rw [if_neg short] at h
      cases h
      have mem : a ∈ v.readSet := parts ▸ List.mem_append_right _ List.mem_cons_self
      have fresh := started.fresh a (List.mem_append_left _ mem)
      refine .quiet (p := .renew ..) pc ⟨started, own, done ++ [a], ?_, ?_⟩ rfl rfl
      · rw [parts, List.append_cons]
      · exact renewed_snoc ⟨a.rts.toNat, BitVec.not_lt.mp short, fresh.known⟩ renewed

end Cases

/-- Every step of `validate_tictoc` is one of the effects that other threads may see. -/
theorem effect_of_validate {preAbort noWait : Bool} {t : τ} (inv : TxnInv init s)
    (small : Small s (.next t)) (h : validate preAbort noWait s t = some s') :
    Step init s t s' := by
  have sound := inv.sound t
  have call := h
  unfold validate at h
  rw [Small] at small
  cases pc : s.pc t with
  | idle => rw [pc] at h; cases h
  | running accesses => rw [pc] at h; cases h
  | preWrite v rest =>
    rw [pc] at h sound
    cases rest with
    | nil => cases h; exact .quiet (p := .preRead ..) pc sound rfl rfl
    | cons a rest =>
      dsimp only at h
      split at h <;> cases h
      · -- a changed write timestamp: nothing is locked yet
        exact .quiet (p := .abort []) pc List.nodup_nil rfl rfl
      · exact .quiet (p := .preWrite ..) pc sound rfl rfl
  | preRead v rest =>
    rw [pc] at h sound
    cases rest with
    | nil => cases h; exact .quiet (p := .lock ..) pc ⟨sound, rfl, nofun⟩ rfl rfl
    | cons a rest =>
      dsimp only at h
      split at h <;> cases h
      · exact .quiet (p := .abort []) pc List.nodup_nil rfl rfl
      · exact .quiet (p := .preRead ..) pc sound rfl rfl
  | lock v held rest => exact step_of_lock inv pc call
  | check v held a rest => exact step_of_check inv pc call
  | backOff v rest =>
    -- the locks go one by one, and the locking begins again
    rw [pc] at h sound
    cases rest with
    | nil => cases h; exact .startLocking preAbort pc rfl rfl sound.1
    | cons a rest =>
      cases h
      have rows := List.nodup_cons.mp sound.2
      exact .release (p := .backOff ..) pc ⟨sound.1, rows.2⟩ rfl rows.1 rfl
  | getRts v rest => exact step_of_getRts inv pc call
  | raise v a rest => exact step_of_raise inv pc call
  | renew v rest =>
    rw [pc] at small
    exact step_of_renew inv pc small call
  | commit v =>
    rw [pc] at h small
    cases h
    have rows := (inv.commit_facts pc).1.writeRows
    refine ⟨_, .commit v pc rfl, rows, fun a ha => inv.commit_owes pc small ?_ ?_ ha⟩
    · rfl
    · rfl
  | write v rest =>
    rw [pc] at h sound
    cases rest with
    | nil => cases h; exact .quiet (p := .idle) pc trivial rfl rfl
    | cons a rest =>
      cases h
      have effect := TxnEffect.write v a rest pc rfl
      refine ⟨_, effect, sound.1, fun b hb => ?_⟩
      -- the writes still owed are to other rows
      have ne : b.origRow ≠ a.origRow := fun e =>
        (List.nodup_cons.mp sound.1).1 (List.mem_map.mpr ⟨b, hb, e⟩)
      have shift : Shift init s _ (· ≠ a.origRow) := effect.shift_of_word inv rfl fun x ne =>
        (TxnState.setWord_word ..).trans (if_neg ne)
      exact (sound.2 b (List.mem_cons_of_mem _ hb)).shift shift ne
  | release v a rest =>
    rw [pc] at h sound
    cases h
    have rows := List.nodup_cons.mp sound.1
    exact .release (p := .write ..) pc ⟨rows.2, sound.2⟩ rfl rows.1 rfl
  | abort rest =>
    rw [pc] at h sound
    cases rest with
    | nil => cases h; exact .quiet (p := .idle) pc trivial rfl rfl
    | cons a rest =>
      cases h
      have rows := List.nodup_cons.mp sound
      exact .release (p := .abort ..) pc rows.2 rfl rows.1 rfl

omit [DecidableEq ρ] [DecidableEq τ] in
theorem map_origRow_modify (accesses : List (Access ρ V)) (rid : Nat) (data : V) :
    (accesses.modify rid fun a => { a with data := data }).map (·.origRow) =
      accesses.map (·.origRow) := by
  induction accesses generalizing rid with
  | nil => cases rid <;> rfl
  | cons a accesses ih =>
    cases rid with
    | zero => rfl
    | succ rid => rw [List.modify_succ_cons, List.map_cons, List.map_cons, ih]

omit [DecidableEq τ] in
/-- The transaction may do with its copy what it wants. -/
theorem fresh_modify {accesses : List (Access ρ V)} (fresh : ∀ a ∈ accesses, Fresh init s a)
    {rid : Nat} {data : V} :
    ∀ a ∈ accesses.modify rid fun a => { a with data := data }, Fresh init s a := by
  induction accesses generalizing rid with
  | nil => cases rid <;> exact fresh
  | cons b accesses ih =>
    obtain ⟨first, others⟩ := List.forall_mem_cons.mp fresh
    cases rid with
    | zero => exact List.forall_mem_cons.mpr ⟨⟨first.lease, first.known⟩, others⟩
    | succ rid =>
      rw [List.modify_succ_cons]
      exact List.forall_mem_cons.mpr ⟨first, ih others⟩

theorem effect_of_txnStep {key : ρ → Nat} {preAbort noWait : Bool} {l : TxnLabel ρ V τ}
    (inv : TxnInv init s) (small : Small s l) (counted : Counted s l)
    (h : txnStep key preAbort noWait s l = some s') : ∃ t, Step init s t s' := by
  cases l with
  | begin t =>
    refine ⟨t, ?_⟩
    rw [txnStep] at h
    split at h
    · next pc => cases h; exact .quiet (p := .running []) pc ⟨List.nodup_nil, nofun⟩ rfl rfl
    · cases h
  | getRow t row type =>
    refine ⟨t, ?_⟩
    rw [txnStep] at h
    split at h
    · next accesses pc =>
      split at h
      · cases h
      · next free =>
        cases h
        obtain ⟨free, new⟩ := not_or.mp free
        have sound := inv.sound t
        rw [pc] at sound
        refine .quiet (p := .running ..) pc ⟨?_, fun a ha => ?_⟩ rfl rfl
        · -- a row is accessed once
          rw [List.map_append, List.nodup_append]
          refine ⟨sound.1, List.pairwise_singleton .., fun x hx y hy => ?_⟩
          rintro rfl
          rw [List.mem_singleton.mp hy] at hx
          exact new hx
        · rcases List.mem_append.mp ha with ha | ha
          · exact sound.2 a ha
          · exact List.mem_singleton.mp ha ▸ inv.fresh_access (by simpa using free) type
    · cases h
  | modify t rid data =>
    refine ⟨t, ?_⟩
    rw [txnStep] at h
    split at h
    · next accesses pc =>
      cases h
      have sound := inv.sound t
      rw [pc] at sound
      refine .quiet (p := .running ..) pc ⟨?_, fun a ha => ?_⟩ rfl rfl
      · rw [map_origRow_modify]
        exact sound.1
      · exact fresh_modify sound.2 a ha
    · cases h
  | finish t =>
    refine ⟨t, ?_⟩
    rw [txnStep] at h
    split at h
    · next accesses pc =>
      cases h
      have sound := inv.sound t
      rw [pc] at sound
      -- the timestamps of the accesses are far from the end of the word
      exact .startLocking preAbort pc rfl rfl (started_of_running key sound pc counted)
    · cases h
  | rollback t =>
    refine ⟨t, ?_⟩
    rw [txnStep] at h
    split at h
    · next pc => cases h; exact .quiet (p := .idle) pc trivial rfl rfl
    · cases h
  | next t => exact ⟨t, effect_of_validate inv small h⟩

omit [DecidableEq τ] in
theorem txnInv_init (init : ρ → V) : TxnInv (τ := τ) init ⟨fun _ => 0, init, fun _ => .idle, []⟩ where
  locks x := ⟨fun h => by simp [locked] at h, fun ⟨_, h⟩ => by cases h⟩
  apart _ _ _ h := by cases h
  sound _ := trivial
  current _ _ _ _ := rfl
  covered _ he := by cases he
  writes _ he := by cases he
  replays := trivial
  increasing _ := List.Pairwise.nil

theorem txnInv_of_reachable {key : ρ → Nat} {preAbort noWait : Bool}
    (reached : (txnMachine key preAbort noWait init τ).Reachable
      (fun s l => Small s l ∧ Counted s l) s) : TxnInv init s := by
  refine reached.invariant ?_ fun s l s' inv ok next => ?_
  · rintro _ rfl
    exact txnInv_init init
  · obtain ⟨t, p, effect, own⟩ := effect_of_txnStep inv ok.1 ok.2 next
    exact effect.txnInv inv own

/-- The committed transactions, by commit timestamps and then by commit order, read what a
serial execution reads, and the write timestamps of a row increase: among the committed
transactions, and at every `write_data` from the word that it finds. -/
structure Serializable (init : ρ → V) (s : TxnState ρ V τ) : Prop where
  replays : Replays init (serialOrder s.log)
  increasing : ∀ x, s.log.Pairwise fun e f => e.writesTo x → f.writesTo x → e.time < f.time
  rising : ∀ t v a rest, s.pc t = .write v (a :: rest) →
    wordWts (s.word a.origRow) < v.commitWts

/-- TicToc is serializable in every run in which the timestamps stay small and every scan is
covered by what the computation of `commit_wts` looks at. -/
theorem tictoc_serializable {key : ρ → Nat} {preAbort noWait : Bool}
    (reached : (txnMachine key preAbort noWait init τ).Reachable
      (fun s l => Small s l ∧ Counted s l) s) : Serializable init s := by
  have inv := txnInv_of_reachable reached
  refine ⟨inv.replays, inv.increasing, fun t v a rest pc => ?_⟩
  have raised : readTs (s.word a.origRow) < v.commitWts.toNat :=
    ((inv.owed pc).2 a List.mem_cons_self).raised
  rw [BitVec.lt_def]
  rw [readTs] at raised
  omega

/-- Two rows with the keys 0 and 1, the default parameters and two transactions at a time. -/
abbrev twoRows : Machine (TxnState (Fin 2) Nat Bool) (TxnLabel (Fin 2) Nat Bool) :=
  txnMachine Fin.val true true (fun _ => 0) Bool

/-- A transaction that writes 7 to one row and 8 to another. -/
def writesBoth (x y : Fin 2) : List (TxnLabel (Fin 2) Nat Bool) :=
  [.begin true, .getRow true x .WR, .modify true x 7, .getRow true y .WR, .modify true y 8,
    .finish true] ++ List.replicate 19 (.next true)

/-- The reader of the old row 0 commits after the writer, and comes before it at time 0. -/
theorem tictoc_serializable_late : ∃ s : TxnState (Fin 2) Nat Bool,
    s.log.map (·.time) = [1, 0] ∧ Serializable (fun _ => 0) s := by
  obtain ⟨s, run, times⟩ := twoRows.exists_along (fun s l => Small s l ∧ Counted s l)
    ⟨fun _ => 0, fun _ => 0, fun _ => .idle, []⟩
    ([.begin false, .getRow false 0 .RD] ++ writesBoth 0 1 ++ [.finish false] ++
      List.replicate 8 (.next false))
    (fun s => s.log.map (·.time)) [1, 0] (by decide)
  exact ⟨s, times, tictoc_serializable ⟨_, _, rfl, run⟩⟩

/-- A transaction scans row 0 before and row 1 after another one writes both. Nothing counts
for its timestamp, so it commits at time 0 without a renewal, before the writer whose value it
has read. -/
theorem scan_not_serializable : ¬ ∀ s : TxnState (Fin 2) Nat Bool,
    twoRows.Reachable Small s → Serializable (fun _ => 0) s := by
  intro always
  obtain ⟨s, run, log⟩ := twoRows.exists_along Small
    ⟨fun _ => 0, fun _ => 0, fun _ => .idle, []⟩
    ([.begin false, .getRow false 0 .SCAN] ++ writesBoth 0 1 ++
      [.getRow false 1 .SCAN, .finish false] ++ List.replicate 10 (.next false))
    TxnState.log [⟨1, [(0, 0), (1, 0)], [(0, 7), (1, 8)]⟩, ⟨0, [(0, 0), (1, 8)], []⟩]
    (by decide)
  have replays := (always s ⟨_, _, rfl, run⟩).replays
  rw [log] at replays
  have reads : (0 : Nat) = 8 := replays.1 (1, 8) (by decide)
  omega

end DBx1000.TicToc
