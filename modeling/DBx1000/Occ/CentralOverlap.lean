import DBx1000.Occ.Central
import Mathlib.Data.List.Nodup

/-!
# What central validation misses

`central_validate` walks the history down to `start_tn`, which is a timestamp, while the
entries carry numbers of `tnc`, which counts the committed writers only. It tests the entries
above `start_tn`; those that came since the start with a number that is not above it go
untested.

## Main result

`central_validate_disjoint`: a committed transaction has read nothing that was committed since its
start, if and only if this holds of the writers that the walk over the history leaves out.

## Proof strategy

`CentralInv` relates the active list and the history to the threads: the numbers fall, the writers
between the critical sections are active, and what came to the history since a start stands in front
of the last `hisStart` entries. Of these the walk tests all that are above `start_tn`.
-/

namespace DBx1000.Occ

open Transition

variable {ρ V τ : Type*}

section

variable [DecidableEq ρ] {set1 set2 : List ρ}

theorem testValid_iff : testValid set1 set2 = true ↔ ∀ x ∈ set2, x ∉ set1 := by
  unfold testValid
  simp only [Bool.not_eq_true', List.any_eq_false]
  constructor
  · intro h x hx hx'
    exact h x hx' (List.any_eq_true.mpr ⟨x, hx, by simp⟩)
  · intro h x hx any
    obtain ⟨y, hy, same⟩ := List.any_eq_true.mp any
    rw [of_decide_eq_true same] at hx
    exact h y hy hx

/-- The walk over a history whose numbers fall tests what lies between its bounds. -/
theorem testHistory_sound {his : List (SetEnt ρ τ)} {finishTn startTn : Nat} {rset : List ρ}
    (falling : his.Pairwise fun h h' => h'.tn < h.tn) (bound : ∀ h ∈ his, h.tn ≤ finishTn)
    (ok : testHistory his finishTn startTn rset = true) {h : SetEnt ρ τ} (mem : h ∈ his)
    (above : startTn < h.tn) : testValid h.rows rset = true := by
  have tests : finishTn > startTn := Nat.lt_of_lt_of_le above (bound h mem)
  rw [testHistory, if_pos tests] at ok
  -- nothing is above `finish_tn`, and what is above `start_tn` comes first
  have skips : his.dropWhile (·.tn > finishTn) = his := by
    cases his with
    | nil => rfl
    | cons h' his =>
      rw [List.dropWhile_cons_of_neg]
      simpa using bound h' List.mem_cons_self
  rw [skips, List.all_eq_true] at ok
  clear skips bound
  refine ok h ?_
  clear ok
  induction his with
  | nil => cases mem
  | cons h' his ih =>
    obtain ⟨lt, falling⟩ := List.pairwise_cons.mp falling
    have first : startTn < h'.tn := by
      rcases List.mem_cons.mp mem with rfl | mem
      · exact above
      · exact Nat.lt_trans above (lt h mem)
    rw [List.takeWhile_cons_of_pos (by simpa using first)]
    rcases List.mem_cons.mp mem with rfl | mem
    · exact List.mem_cons_self
    · exact List.mem_cons_of_mem _ (ih falling mem)

end

/-! ### The transactions in `active` -/

/-- The transaction, if it writes, is between its two critical sections. -/
def CentralPc.Entered : CentralPc ρ V τ → Prop
  | .test v | .write v _ | .second v _ => wset v.accesses ≠ []
  | _ => False

/-- The tests that a transaction has passed. -/
def CentralPc.Tested [DecidableEq ρ] (startTn : Nat) : CentralPc ρ V τ → Prop
  | .test v => (v.his.Pairwise fun h h' => h'.tn < h.tn) ∧ (∀ h ∈ v.his, h.tn ≤ v.finishTn) ∧
      ∀ h ∈ v.overlapping, h ∈ v.his
  | .write v _ | .second v true =>
    ∀ h ∈ v.overlapping, startTn < h.tn → testValid h.rows (rset v.accesses) = true
  | _ => True

variable [DecidableEq ρ]

structure CentralInv (s : CentralState ρ V τ) : Prop where
  falling : s.occ.history.Pairwise fun h h' => h'.tn < h.tn
  numbers : ∀ h ∈ s.occ.history, h.tn ≤ s.occ.tnc
  activeLen : s.occ.activeLen = s.occ.active.length
  distinct : (s.occ.active.map (·.txn)).Nodup
  active : ∀ t, t ∈ s.occ.active.map (·.txn) ↔ (s.pc t).Entered
  tested : ∀ t, (s.pc t).Tested (s.startTs t)
  commits : ∀ c ∈ s.commits, ∀ h ∈ c.overlapping, c.startTs < h.tn →
    testValid h.rows c.rset = true

variable {s s' : CentralState ρ V τ} {t : τ}

omit [DecidableEq ρ] in
theorem mem_pop [DecidableEq τ] {occ : OptCC ρ τ} (distinct : (occ.active.map (·.txn)).Nodup)
    (u : τ) : u ∈ (occ.pop t).active.map (·.txn) ↔ u ≠ t ∧ u ∈ occ.active.map (·.txn) := by
  unfold OptCC.pop
  generalize occ.active = active at *
  induction active with
  | nil => simp
  | cons ent active ih =>
    obtain ⟨fresh, distinct⟩ := List.nodup_cons.mp distinct
    -- the entry of `t` is the one that is erased
    by_cases same : ent.txn = t
    · rw [List.eraseP_cons_of_pos (by simpa using same), List.map_cons, List.mem_cons]
      constructor
      · intro mem
        refine ⟨fun is => fresh ?_, .inr mem⟩
        rw [is, ← same] at mem
        exact mem
      · rintro ⟨ne, is | mem⟩
        · exact absurd (is.trans same) ne
        · exact mem
    · rw [List.eraseP_cons_of_neg (by simpa using same), List.map_cons, List.map_cons,
        List.mem_cons, List.mem_cons, ih distinct]
      constructor
      · rintro (is | ⟨ne, mem⟩)
        · exact ⟨fun h => same (is.symm.trans h), .inl is⟩
        · exact ⟨ne, .inr mem⟩
      · rintro ⟨ne, is | mem⟩
        · exact .inl is
        · exact .inr ⟨ne, mem⟩

omit [DecidableEq ρ] in
/-- A transaction that writes leaves `active`, and its write set may come to the history. -/
theorem leave_of_writes [DecidableEq τ] (occ : OptCC ρ τ) {rows : List ρ} {v : Bool}
    (writes : rows ≠ []) :
    (occ.leave t rows v).active = (occ.pop t).active ∧
    (occ.leave t rows v).activeLen = (occ.pop t).activeLen ∧
    ((occ.leave t rows v).history = occ.history ∧ (occ.leave t rows v).tnc = occ.tnc ∨
      (occ.leave t rows v).history = ⟨occ.tnc + 1, t, rows⟩ :: occ.history ∧
        (occ.leave t rows v).tnc = occ.tnc + 1) := by
  cases rows with
  | nil => exact absurd rfl writes
  | cons x rows =>
    cases v with
    | true => exact ⟨rfl, rfl, .inr ⟨rfl, rfl⟩⟩
    | false => exact ⟨rfl, rfl, .inl ⟨rfl, rfl⟩⟩

namespace CentralInv

variable [DecidableEq τ] {p : CentralPc ρ V τ}

/-- A step of one thread that leaves `OptCC` and the commits as they are. -/
theorem goto (inv : CentralInv s) (pc : s'.pc = Function.update s.pc t p) (occ : s'.occ = s.occ)
    (commits : s'.commits = s.commits) (startTs : ∀ u, u ≠ t → s'.startTs u = s.startTs u)
    (entered : p.Entered ↔ (s.pc t).Entered) (tested : p.Tested (s'.startTs t)) :
    CentralInv s' := by
  constructor
  case falling =>
    rw [occ]
    exact inv.falling
  case numbers =>
    rw [occ]
    exact inv.numbers
  case activeLen =>
    rw [occ]
    exact inv.activeLen
  case distinct =>
    rw [occ]
    exact inv.distinct
  case active =>
    intro u
    rw [occ, pc, inv.active, Function.update_apply]
    split
    · next e => rw [e, entered]
    · exact Iff.rfl
  case tested =>
    intro u
    rw [pc, Function.update_apply]
    split
    · next e =>
      rw [e]
      exact tested
    · next ne =>
      rw [startTs u ne]
      exact inv.tested u
  case commits =>
    rw [commits]
    exact inv.commits

theorem enter (inv : CentralInv s) {accesses : List (Access ρ V)} (pc : s.pc t = .running accesses) :
    CentralInv (s.enter t accesses) := by
  have absent : t ∉ s.occ.active.map (·.txn) := by
    rw [inv.active, pc]
    exact id
  have tested (u : τ) : ((s.enter t accesses).pc u).Tested (s.startTs u) := by
    change (Function.update s.pc t (.test _) u).Tested _
    rw [Function.update_apply]
    split
    · exact ⟨inv.falling, inv.numbers, fun h hh => List.mem_of_mem_take hh⟩
    · exact inv.tested u
  have entered (u : τ) : ((s.enter t accesses).pc u).Entered ↔
      if u = t then wset accesses ≠ [] else (s.pc u).Entered := by
    change (Function.update s.pc t (.test _) u).Entered ↔ _
    rw [Function.update_apply]
    split <;> exact Iff.rfl
  -- a reader does not enter the list of the active sets
  by_cases readonly : wset accesses = []
  · have occ : (s.enter t accesses).occ = s.occ := if_pos readonly
    constructor
    case falling =>
      rw [occ]
      exact inv.falling
    case numbers =>
      rw [occ]
      exact inv.numbers
    case activeLen =>
      rw [occ]
      exact inv.activeLen
    case distinct =>
      rw [occ]
      exact inv.distinct
    case active =>
      intro u
      rw [occ, entered]
      split
      · next e =>
        rw [e]
        exact iff_of_false absent fun ne => ne readonly
      · exact inv.active u
    case tested => exact tested
    case commits => exact inv.commits
  · have occ : (s.enter t accesses).occ = s.occ.push ⟨0, t, wset accesses⟩ := if_neg readonly
    constructor
    case falling =>
      rw [occ]
      exact inv.falling
    case numbers =>
      rw [occ]
      exact inv.numbers
    case activeLen =>
      rw [occ]
      exact congrArg (· + 1) inv.activeLen
    case distinct =>
      rw [occ]
      exact List.nodup_cons.mpr ⟨absent, inv.distinct⟩
    case active =>
      intro u
      rw [occ, entered]
      change u ∈ t :: s.occ.active.map _ ↔ _
      rw [List.mem_cons, inv.active]
      split
      · next e => exact iff_of_true (.inl e) readonly
      · next ne => exact ⟨fun h => h.resolve_left ne, .inr⟩
    case tested => exact tested
    case commits => exact inv.commits

/-- The transaction that leaves is in `active` if it writes, so that the list gets shorter. -/
theorem activeLen_pop (inv : CentralInv s) (mem : t ∈ s.occ.active.map (·.txn)) :
    (s.occ.pop t).activeLen = (s.occ.pop t).active.length := by
  obtain ⟨ent, mem, same⟩ := List.mem_map.mp mem
  change s.occ.activeLen - 1 = (s.occ.active.eraseP _).length
  rw [List.length_eraseP_of_mem mem (by simpa using same), inv.activeLen]

theorem leave (inv : CentralInv s) {v : CentralValidation ρ V τ} {valid : Bool}
    (pc : s.pc t = .second v valid) : CentralInv (s.leave t v valid) := by
  have was : (s.pc t).Entered ↔ wset v.accesses ≠ [] := by
    rw [pc]
    exact Iff.rfl
  have mine := inv.tested t
  rw [pc] at mine
  -- the thread is outside both critical sections, whatever the outcome
  have outside : ∃ p : CentralPc ρ V τ, (s.leave t v valid).pc = Function.update s.pc t p ∧
      ¬ p.Entered ∧ ∀ tn, p.Tested tn := by
    cases valid with
    | true => exact ⟨.idle, rfl, id, fun _ => trivial⟩
    | false => exact ⟨.abort v.accesses.reverse, rfl, id, fun _ => trivial⟩
  obtain ⟨p, update, not_entered, tested⟩ := outside
  have entered (u : τ) : ((s.leave t v valid).pc u).Entered ↔ u ≠ t ∧ (s.pc u).Entered := by
    rw [update, Function.update_apply]
    split
    · next e => exact iff_of_false not_entered fun h => h.1 e
    · next ne => exact ⟨fun h => ⟨ne, h⟩, fun h => h.2⟩
  have tested' (u : τ) : ((s.leave t v valid).pc u).Tested ((s.leave t v valid).startTs u) := by
    have start : (s.leave t v valid).startTs = s.startTs := by cases valid <;> rfl
    rw [update, start, Function.update_apply]
    split
    · exact tested _
    · exact inv.tested u
  have commits : ∀ c ∈ (s.leave t v valid).commits, ∀ h ∈ c.overlapping, c.startTs < h.tn →
      testValid h.rows c.rset = true := by
    cases valid with
    | false => exact inv.commits
    | true =>
      intro c hc
      rcases List.mem_append.mp hc with hc | hc
      · exact inv.commits c hc
      · rw [List.mem_singleton.mp hc]
        exact mine
  have leaves : (s.leave t v valid).occ = s.occ.leave t (wset v.accesses) valid := by
    cases valid <;> rfl
  -- a reader stands in no list
  by_cases readonly : wset v.accesses = []
  · have occ : (s.leave t v valid).occ = s.occ := by
      rw [leaves, readonly]
      rfl
    constructor
    case falling =>
      rw [occ]
      exact inv.falling
    case numbers =>
      rw [occ]
      exact inv.numbers
    case activeLen =>
      rw [occ]
      exact inv.activeLen
    case distinct =>
      rw [occ]
      exact inv.distinct
    case active =>
      intro u
      rw [occ, entered, inv.active]
      refine ⟨fun h => ⟨fun is => ?_, h⟩, fun h => h.2⟩
      rw [is, was] at h
      exact h readonly
    case tested => exact tested'
    case commits => exact commits
  · -- a writer leaves the active sets, and stands in the history if it is valid
    have mem : t ∈ s.occ.active.map (·.txn) := by
      rw [inv.active, was]
      exact readonly
    obtain ⟨active, activeLen, history⟩ := leave_of_writes s.occ (t := t) (v := valid) readonly
    rw [← leaves] at active activeLen history
    constructor
    case falling =>
      rcases history with ⟨history, -⟩ | ⟨history, -⟩
      · rw [history]
        exact inv.falling
      · rw [history]
        exact List.pairwise_cons.mpr
          ⟨fun h hh => Nat.lt_succ_of_le (inv.numbers h hh), inv.falling⟩
    case numbers =>
      rcases history with ⟨history, tnc⟩ | ⟨history, tnc⟩
      · rw [history, tnc]
        exact inv.numbers
      · rw [history, tnc]
        intro h hh
        rcases List.mem_cons.mp hh with rfl | hh
        · exact Nat.le_refl _
        · exact Nat.le_succ_of_le (inv.numbers h hh)
    case activeLen =>
      rw [active, activeLen]
      exact inv.activeLen_pop mem
    case distinct =>
      rw [active]
      exact inv.distinct.sublist (List.eraseP_sublist.map _)
    case active =>
      intro u
      rw [active, mem_pop inv.distinct, entered, inv.active]
    case tested => exact tested'
    case commits => exact commits

theorem next (inv : CentralInv s) (h : centralNext s t = some s') : CentralInv s' := by
  have mine := inv.tested t
  simp only [centralNext] at h
  split at h
  · cases h
  · cases h
  · -- `test`
    next v pc =>
    rw [pc] at mine
    obtain ⟨falling, numbers, old⟩ := mine
    split at h
    · next valid =>
      rw [← Option.some.inj h]
      refine inv.goto rfl rfl rfl (fun _ _ => rfl) (by rw [pc]; exact Iff.rfl) fun e he above => ?_
      exact testHistory_sound falling numbers (Bool.and_eq_true_iff.mp valid).1 (old e he) above
    · rw [← Option.some.inj h]
      exact inv.goto rfl rfl rfl (fun _ _ => rfl) (by rw [pc]; exact Iff.rfl) trivial
  · -- `write`, with all rows written
    next v pc =>
    rw [pc] at mine
    rw [← Option.some.inj h]
    exact inv.goto rfl rfl rfl (fun _ _ => rfl) (by rw [pc]; exact Iff.rfl) mine
  · -- `write`, with the next row
    next v a rest pc =>
    rw [pc] at mine
    rw [← Option.some.inj h, CentralState.returnRow]
    split
    · exact inv.goto rfl rfl rfl (fun _ _ => rfl) (by rw [pc]; exact Iff.rfl) mine
    · exact inv.goto rfl rfl rfl (fun _ _ => rfl) (by rw [pc]; exact Iff.rfl) mine
  · -- `second`
    next v valid pc =>
    rw [← Option.some.inj h]
    exact inv.leave pc
  · -- `abort`
    next pc =>
    rw [← Option.some.inj h]
    exact inv.goto rfl rfl rfl (fun _ _ => rfl) (by rw [pc]; exact Iff.rfl) trivial
  · next pc =>
    rw [← Option.some.inj h]
    exact inv.goto rfl rfl rfl (fun _ _ => rfl) (by rw [pc]; exact Iff.rfl) trivial

variable {cfg : TsConfig} {l : CentralLabel ρ V τ}

theorem step (inv : CentralInv s) (h : centralStep cfg s l = some s') : CentralInv s' := by
  cases l with
  | begin t =>
    simp only [centralStep] at h
    split at h
    · next pc =>
      rw [← Option.some.inj h]
      exact inv.goto rfl rfl rfl (fun _ ne => Function.update_of_ne ne ..)
        (by rw [pc]; exact Iff.rfl) trivial
    · cases h
  | getRow t row type =>
    simp only [centralStep] at h
    split at h
    · next pc =>
      split at h
      · rw [← Option.some.inj h]
        exact inv.goto rfl rfl rfl (fun _ _ => rfl) (by rw [pc]; exact Iff.rfl) trivial
      · rw [← Option.some.inj h]
        exact inv.goto rfl rfl rfl (fun _ _ => rfl) (by rw [pc]; exact Iff.rfl) trivial
    · cases h
  | modify t rid data =>
    simp only [centralStep] at h
    split at h
    · next pc =>
      rw [← Option.some.inj h]
      exact inv.goto rfl rfl rfl (fun _ _ => rfl) (by rw [pc]; exact Iff.rfl) trivial
    · cases h
  | finish t =>
    simp only [centralStep] at h
    split at h
    · next pc =>
      rw [← Option.some.inj h]
      exact inv.enter pc
    · cases h
  | rollback t =>
    simp only [centralStep] at h
    split at h
    · next pc =>
      rw [← Option.some.inj h]
      exact inv.goto rfl rfl rfl (fun _ _ => rfl) (by rw [pc]; exact Iff.rfl) trivial
    · cases h
  | next t => exact inv.next h

variable {currTs : τ → Nat} {init : ρ → V} {ok : CentralState ρ V τ → CentralLabel ρ V τ → Prop}

theorem of_reachable (reached : (centralMachine cfg currTs init).Reachable ok s) : CentralInv s := by
  refine reached.invariant (I := CentralInv) (fun s start => ?_) fun s a s' inv _ h => inv.step h
  cases start
  exact ⟨.nil, nofun, rfl, .nil, fun t => iff_of_false nofun id, fun t => trivial, nofun⟩

omit [DecidableEq τ] in
/-- A committed transaction has passed the tests against what came with numbers above its start. -/
theorem disjoint_iff (inv : CentralInv s) {c : Commit ρ τ} (hc : c ∈ s.commits) :
    (∀ h ∈ c.overlapping, ∀ x ∈ c.rset, x ∉ h.rows) ↔
      ∀ h ∈ c.overlapping, h.tn ≤ c.startTs → ∀ x ∈ c.rset, x ∉ h.rows := by
  constructor
  · exact fun disjoint h hh _ => disjoint h hh
  · intro low h hh
    rcases Nat.lt_or_ge c.startTs h.tn with above | below
    · exact testValid_iff.mp (inv.commits c hc h hh above)
    · exact low h hh below

end CentralInv

/-! ### Runs that leave nothing untested -/

/-- Of the write sets that came since the start of a validating transaction, those that the walk
over the history does not reach have no row of its read set. -/
def NoneSkipped (s : CentralState ρ V τ) : CentralLabel ρ V τ → Prop
  | .finish t =>
    match s.pc t with
    | .running accesses =>
      ∀ h ∈ s.overlapping t, h.tn ≤ s.startTs t → ∀ x ∈ rset accesses, x ∉ h.rows
    | _ => True
  | _ => True

instance (s : CentralState ρ V τ) (l : CentralLabel ρ V τ) : Decidable (NoneSkipped s l) := by
  cases l with
  | finish t =>
    unfold NoneSkipped
    dsimp only
    split <;> infer_instance
  | begin t => exact isTrue trivial
  | getRow t row type => exact isTrue trivial
  | modify t rid data => exact isTrue trivial
  | rollback t => exact isTrue trivial
  | next t => exact isTrue trivial

/-- What `NoneSkipped` says, while the transaction validates, -/
def CentralPc.Unskipped (startTn : Nat) : CentralPc ρ V τ → Prop
  | .test v | .write v _ | .second v _ =>
    ∀ h ∈ v.overlapping, h.tn ≤ startTn → ∀ x ∈ rset v.accesses, x ∉ h.rows
  | _ => True

/-- and of the committed transactions. -/
structure Unskipped (s : CentralState ρ V τ) : Prop where
  validating : ∀ t, (s.pc t).Unskipped (s.startTs t)
  commits : ∀ c ∈ s.commits, ∀ h ∈ c.overlapping, h.tn ≤ c.startTs → ∀ x ∈ c.rset, x ∉ h.rows

namespace Unskipped

variable [DecidableEq τ] {p : CentralPc ρ V τ} {cfg : TsConfig} {l : CentralLabel ρ V τ}

omit [DecidableEq ρ] in
theorem goto (inv : Unskipped s) (pc : s'.pc = Function.update s.pc t p)
    (startTs : ∀ u, u ≠ t → s'.startTs u = s.startTs u) (own : p.Unskipped (s'.startTs t))
    (commits : ∀ c ∈ s'.commits, c ∈ s.commits ∨
      ∀ h ∈ c.overlapping, h.tn ≤ c.startTs → ∀ x ∈ c.rset, x ∉ h.rows) : Unskipped s' := by
  constructor
  · intro u
    rw [pc, Function.update_apply]
    split
    · next e =>
      rw [e]
      exact own
    · next ne =>
      rw [startTs u ne]
      exact inv.validating u
  · intro c hc
    rcases commits c hc with old | new
    · exact inv.commits c old
    · exact new

theorem next (inv : Unskipped s) (h : centralNext s t = some s') : Unskipped s' := by
  have mine := inv.validating t
  simp only [centralNext] at h
  split at h
  · cases h
  · cases h
  · -- `test`
    next v pc =>
    rw [pc] at mine
    split at h
    · rw [← Option.some.inj h]
      exact inv.goto rfl (fun _ _ => rfl) mine fun c hc => .inl hc
    · rw [← Option.some.inj h]
      exact inv.goto rfl (fun _ _ => rfl) mine fun c hc => .inl hc
  · -- `write`
    next v pc =>
    rw [pc] at mine
    rw [← Option.some.inj h]
    exact inv.goto rfl (fun _ _ => rfl) mine fun c hc => .inl hc
  · next v a rest pc =>
    rw [pc] at mine
    rw [← Option.some.inj h, CentralState.returnRow]
    split
    · exact inv.goto rfl (fun _ _ => rfl) mine fun c hc => .inl hc
    · exact inv.goto rfl (fun _ _ => rfl) mine fun c hc => .inl hc
  · -- `second`: a transaction that commits has met the condition
    next v valid pc =>
    rw [pc] at mine
    rw [← Option.some.inj h]
    cases valid with
    | false => exact inv.goto (p := .abort _) rfl (fun _ _ => rfl) trivial fun c hc => .inl hc
    | true =>
      refine inv.goto (p := .idle) rfl (fun _ _ => rfl) trivial fun c hc => ?_
      rcases List.mem_append.mp hc with hc | hc
      · exact .inl hc
      · rw [List.mem_singleton.mp hc]
        exact .inr mine
  · -- `abort`
    rw [← Option.some.inj h]
    exact inv.goto rfl (fun _ _ => rfl) trivial fun c hc => .inl hc
  · rw [← Option.some.inj h]
    exact inv.goto rfl (fun _ _ => rfl) trivial fun c hc => .inl hc

theorem step (inv : Unskipped s) (met : NoneSkipped s l) (h : centralStep cfg s l = some s') :
    Unskipped s' := by
  cases l with
  | begin t =>
    simp only [centralStep] at h
    split at h
    · rw [← Option.some.inj h]
      exact inv.goto rfl (fun _ ne => Function.update_of_ne ne ..) trivial fun c hc => .inl hc
    · cases h
  | getRow t row type =>
    simp only [centralStep] at h
    split at h
    · split at h
      · rw [← Option.some.inj h]
        exact inv.goto rfl (fun _ _ => rfl) trivial fun c hc => .inl hc
      · rw [← Option.some.inj h]
        exact inv.goto rfl (fun _ _ => rfl) trivial fun c hc => .inl hc
    · cases h
  | modify t rid data =>
    simp only [centralStep] at h
    split at h
    · rw [← Option.some.inj h]
      exact inv.goto rfl (fun _ _ => rfl) trivial fun c hc => .inl hc
    · cases h
  | finish t =>
    simp only [centralStep] at h
    split at h
    · next pc =>
      rw [← Option.some.inj h]
      simp only [NoneSkipped, pc] at met
      exact inv.goto rfl (fun _ _ => rfl) met fun c hc => .inl hc
    · cases h
  | rollback t =>
    simp only [centralStep] at h
    split at h
    · rw [← Option.some.inj h]
      exact inv.goto rfl (fun _ _ => rfl) trivial fun c hc => .inl hc
    · cases h
  | next t => exact inv.next h

end Unskipped

variable [DecidableEq τ]

/-- **When central validation is sound.** In every run a committed transaction has read no row
that was written and committed between its start and its validation if and only if this holds
of the writers whose numbers are not above its start timestamp; and it holds of all committed
transactions in a run in which every validation meets this condition. -/
theorem central_validate_disjoint (cfg : TsConfig) (currTs : τ → Nat) (init : ρ → V) :
    (∀ s : CentralState ρ V τ, (centralMachine cfg currTs init).Reachable Free s → ∀ c ∈ s.commits,
      ((∀ h ∈ c.overlapping, ∀ x ∈ c.rset, x ∉ h.rows) ↔
        ∀ h ∈ c.overlapping, h.tn ≤ c.startTs → ∀ x ∈ c.rset, x ∉ h.rows)) ∧
    ∀ s : CentralState ρ V τ, (centralMachine cfg currTs init).Reachable NoneSkipped s →
      ∀ c ∈ s.commits, ∀ h ∈ c.overlapping, ∀ x ∈ c.rset, x ∉ h.rows := by
  constructor
  · exact fun s reached c hc => (CentralInv.of_reachable reached).disjoint_iff hc
  · intro s reached c hc
    have unskipped : Unskipped s := by
      refine reached.invariant (I := Unskipped) (fun s start => ?_)
        fun s a s' inv met h => inv.step met h
      cases start
      exact ⟨fun t => trivial, nofun⟩
    exact ((CentralInv.of_reachable reached).disjoint_iff hc).mpr (unskipped.commits c hc)

/-- A writer of another row, which the walk over the history does not reach. -/
theorem central_validate_disjoint_apart :
    ∃ s : CentralState Nat Nat Nat,
      s.commits = [⟨1, 2, [], []⟩, ⟨0, 1, [5], [⟨1, 1, [7]⟩]⟩] ∧
        ∀ c ∈ s.commits, ∀ h ∈ c.overlapping, ∀ x ∈ c.rset, x ∉ h.rows := by
  obtain ⟨s, path, e⟩ := Machine.exists_along
    (centralMachine ⟨.TS_CAS, false, 1, (fun h => by cases h), Nat.one_pos⟩ id fun _ => 0) NoneSkipped
    ⟨.init id, ⟨[], [], 0, 0⟩, fun _ => .init 0, fun _ => 0, fun _ => 0, fun _ => .idle,
      fun _ => 0, []⟩
    ([.begin 0, .getRow 0 5 .RD, .begin 1, .getRow 1 7 .WR, .modify 1 0 9, .finish 1] ++
      List.replicate 4 (.next 1) ++ [.finish 0] ++ List.replicate 4 (.next 0))
    (fun s => s.commits) [⟨1, 2, [], []⟩, ⟨0, 1, [5], [⟨1, 1, [7]⟩]⟩] (by decide)
  exact ⟨s, e, (central_validate_disjoint _ _ _).2 s ⟨_, _, rfl, path⟩⟩

/-- A reader that starts first, a writer that commits with number 1, which is not above the
start timestamp 1 of the reader, and the reader commits. -/
theorem central_validate_overlap :
    ¬ ∀ s : CentralState Nat Nat Nat,
      (centralMachine ⟨.TS_CAS, false, 1, nofun, Nat.one_pos⟩ id fun _ => 0).Reachable Free s →
        ∀ c ∈ s.commits, ∀ h ∈ c.overlapping, ∀ x ∈ c.rset, x ∉ h.rows := by
  intro claim
  obtain ⟨s, path, e⟩ := Machine.exists_along
    (centralMachine ⟨.TS_CAS, false, 1, nofun, Nat.one_pos⟩ id fun _ => 0) Free
    ⟨.init id, ⟨[], [], 0, 0⟩, fun _ => .init 0, fun _ => 0, fun _ => 0, fun _ => .idle,
      fun _ => 0, []⟩
    ([.begin 0, .getRow 0 5 .RD, .begin 1, .getRow 1 5 .WR, .modify 1 0 9, .finish 1] ++
      List.replicate 4 (.next 1) ++ [.finish 0] ++ List.replicate 4 (.next 0))
    (fun s => s.commits) [⟨1, 2, [], []⟩, ⟨0, 1, [5], [⟨1, 1, [5]⟩]⟩] (by decide)
  have mem : (⟨0, 1, [5], [⟨1, 1, [5]⟩]⟩ : Commit Nat Nat) ∈ s.commits := by
    rw [e]
    decide
  exact claim s ⟨_, _, rfl, path⟩ _ mem ⟨1, 1, [5]⟩ (by decide) 5 (by decide) (by decide)

end DBx1000.Occ
