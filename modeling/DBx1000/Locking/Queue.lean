import DBx1000.Locking.Lock

/-!
# The queue that the lock of a row implements

What the lock is for, without pointers: requests own the row together or wait for it in
order. `Sound` collects what every call keeps: owners are compatible, no transaction has
two requests, and the first waiter conflicts with the owners, so that no waiter is left
asleep that could be granted. `Aged` is the order of timestamps that WAIT_DIE adds.
-/

namespace DBx1000.Locking

variable {τ : Type*}

structure Request (τ : Type*) where
  txn : τ
  type : LockType
  deriving DecidableEq

/-- The mode of the owners; they all have the same. -/
def modeOf : List (Request τ) → LockType
  | [] => .lockNone
  | r :: _ => r.type

@[simp] theorem modeOf_cons {r : Request τ} {rs : List (Request τ)} : modeOf (r :: rs) = r.type :=
  rfl

structure Queue (τ : Type*) where
  owners : List (Request τ)
  waiters : List (Request τ)

namespace Queue

open RowLock (conflictLock)

def requests (q : Queue τ) : List (Request τ) := q.owners ++ q.waiters

/-! ### Operations -/

/-- A request has to wait for the owners, for an older transaction that waits (WAIT_DIE), or
for anyone who waits (DL_DETECT). -/
def blocks (alg : CcAlg) (ts : τ → Nat) (q : Queue τ) (r : Request τ) : Prop :=
  conflictLock (modeOf q.owners) r.type ∨
    (alg = .waitDie ∧ ∃ w ∈ q.waiters.head?, ts r.txn < ts w.txn) ∨
    (alg = .dlDetect ∧ q.waiters ≠ [])

instance (alg : CcAlg) (ts : τ → Nat) (q : Queue τ) (r : Request τ) :
    Decidable (q.blocks alg ts r) :=
  inferInstanceAs (Decidable (_ ∨ (_ ∧ _) ∨ (_ ∧ _)))

/-- Behind all requests with a larger timestamp. -/
def enqueue (ts : τ → Nat) (r : Request τ) (ws : List (Request τ)) : List (Request τ) :=
  ws.takeWhile (ts r.txn < ts ·.txn) ++ r :: ws.dropWhile (ts r.txn < ts ·.txn)

def get (alg : CcAlg) (ts : τ → Nat) (q : Queue τ) (r : Request τ) : RC × Queue τ :=
  if q.blocks alg ts r then
    match alg with
    | .noWait => (.Abort, q)
    | .dlDetect => (.WAIT, { q with waiters := q.waiters ++ [r] })
    | .waitDie =>
      if ∃ o ∈ q.owners, ts o.txn < ts r.txn then (.Abort, q)
      else (.WAIT, { q with waiters := enqueue ts r q.waiters })
  else (.RCOK, { q with owners := r :: q.owners })

/-- The waiters that join the owners: the longest prefix without a conflict. -/
def granted (mode : LockType) : List (Request τ) → List (Request τ)
  | [] => []
  | w :: ws => if conflictLock mode w.type then [] else w :: granted w.type ws

/-- All of them join. -/
def grant (q : Queue τ) : Queue τ :=
  let joined := granted (modeOf q.owners) q.waiters
  { owners := joined.reverse ++ q.owners, waiters := q.waiters.drop joined.length }

section Remove

variable [DecidableEq τ]

/-- Takes the request of a transaction out of the owners, or else out of the waiters. -/
def remove (q : Queue τ) (t : τ) : Queue τ :=
  if ∃ o ∈ q.owners, o.txn = t then { q with owners := q.owners.eraseP (·.txn = t) }
  else { q with waiters := q.waiters.eraseP (·.txn = t) }

def release (q : Queue τ) (t : τ) : Queue τ := (q.remove t).grant

end Remove

/-! ### What every call keeps -/

/-- Requests for a real mode, at most one by each transaction, those of the owners compatible. -/
structure Consistent (q : Queue τ) : Prop where
  distinct : (q.requests.map (·.txn)).Nodup
  real : ∀ r ∈ q.requests, r.type ≠ .lockNone
  compatible : q.owners.Pairwise fun a b => conflictLock a.type b.type = false

/-- The first waiter conflicts with the owners. -/
def Blocked (q : Queue τ) : Prop :=
  ∀ w ∈ q.waiters.head?, conflictLock (modeOf q.owners) w.type = true

structure Sound (q : Queue τ) : Prop extends Consistent q where
  blocked : q.Blocked

theorem conflictLock_false_iff {l1 l2 : LockType} :
    conflictLock l1 l2 = false ↔
      l1 = .lockNone ∨ l2 = .lockNone ∨ (l1 = .lockSh ∧ l2 = .lockSh) := by
  cases l1 <;> cases l2 <;> simp [conflictLock]

theorem conflictLock_comm (l1 l2 : LockType) : conflictLock l1 l2 = conflictLock l2 l1 := by
  cases l1 <;> cases l2 <;> rfl

variable {q : Queue τ} {r : Request τ}

/-- The owners agree with the mode of the last one that joined. -/
theorem Consistent.type_eq (h : q.Consistent) {o : Request τ} (mem : o ∈ q.owners) :
    o.type = modeOf q.owners := by
  obtain ⟨owners, waiters⟩ := q
  cases owners with
  | nil => cases mem
  | cons p owners =>
    rcases List.mem_cons.mp mem with rfl | mem
    · rfl
    · have apart := (List.pairwise_cons.mp h.compatible).1 o mem
      have realP := h.real p (by simp [requests])
      have realO := h.real o (by simp [requests, mem])
      rcases conflictLock_false_iff.mp apart with e | e | ⟨ep, eo⟩
      · exact absurd e realP
      · exact absurd e realO
      · exact eo.trans ep.symm

/-- No owner, owners in shared mode only, or a single one in exclusive mode. -/
theorem Consistent.owners_cases (h : q.Consistent) :
    (q.owners = [] ∧ modeOf q.owners = .lockNone) ∨
    (q.owners ≠ [] ∧ modeOf q.owners = .lockSh ∧ ∀ o ∈ q.owners, o.type = .lockSh) ∨
    ∃ o, q.owners = [o] ∧ o.type = .lockEx ∧ modeOf q.owners = .lockEx := by
  have types := fun o mem => h.type_eq (o := o) mem
  have apart := h.compatible
  have real := h.real
  obtain ⟨owners, waiters⟩ := q
  cases owners with
  | nil => exact .inl ⟨rfl, rfl⟩
  | cons o owners =>
    right
    cases mode : o.type with
    | lockNone => exact absurd mode (real o (by simp [requests]))
    | lockSh => exact .inl ⟨by simp, mode, fun p hp => (types p hp).trans mode⟩
    | lockEx =>
      right
      cases owners with
      | nil => exact ⟨o, rfl, mode, mode⟩
      | cons p owners =>
        -- an exclusive owner stands alone
        have := (List.pairwise_cons.mp apart).1 p List.mem_cons_self
        rw [mode, (types p (by simp)).trans mode] at this
        cases this

/-- An owner in exclusive mode is the only one. -/
theorem Consistent.exclusive (h : q.Consistent) {o p : Request τ} (ho : o ∈ q.owners)
    (ex : o.type = .lockEx) (hp : p ∈ q.owners) : p = o := by
  rcases h.owners_cases with ⟨none, -⟩ | ⟨-, -, types⟩ | ⟨single, owners, -⟩
  · rw [none] at ho
    cases ho
  · have := types o ho
    rw [ex] at this
    cases this
  · rw [owners, List.mem_singleton] at ho hp
    rw [ho, hp]

/-- A request that conflicts with no owner can join. -/
theorem Consistent.join (h : q.Consistent) (real : r.type ≠ .lockNone)
    (new : r.txn ∉ q.requests.map (·.txn))
    (free : conflictLock (modeOf q.owners) r.type = false) :
    Consistent { q with owners := r :: q.owners } where
  distinct := List.nodup_cons.mpr ⟨new, h.distinct⟩
  real p hp := by
    rcases List.mem_cons.mp hp with rfl | hp
    · exact real
    · exact h.real p hp
  compatible := by
    refine List.pairwise_cons.mpr ⟨fun o ho => ?_, h.compatible⟩
    rw [h.type_eq ho, conflictLock_comm]
    exact free

/-- Whoever has to wait under DL_DETECT waits for a transaction with a conflicting request. -/
theorem Sound.exists_conflict {ts : τ → Nat} (h : q.Sound) (real : r.type ≠ .lockNone)
    (waits : q.blocks .dlDetect ts r) :
    (∃ w ∈ q.waiters, conflictLock r.type w.type = true) ∨
      (q.owners ≠ [] ∧ conflictLock r.type (modeOf q.owners) = true) := by
  rcases waits with conflict | ⟨e, -⟩ | ⟨-, some⟩
  · right
    refine ⟨?_, conflictLock_comm .. ▸ conflict⟩
    intro none
    simp [none, modeOf, conflictLock] at conflict
  · cases e
  · obtain ⟨w, hw⟩ := List.exists_mem_of_ne_nil _ some
    have realW : w.type ≠ .lockNone := h.real w (by simp [requests, hw])
    cases type : r.type with
    | lockNone => exact absurd type real
    | lockEx =>
      left
      refine ⟨w, hw, ?_⟩
      cases typeW : w.type with
      | lockNone => exact absurd typeW realW
      | lockEx => rfl
      | lockSh => rfl
    | lockSh =>
      -- The first waiter waits for exclusive owners, or wants an exclusive lock.
      obtain ⟨v, hv⟩ : ∃ v, v ∈ q.waiters.head? := by
        cases waiters : q.waiters with
        | nil => exact absurd waiters some
        | cons v ws => exact ⟨v, rfl⟩
      have conflict := h.blocked v hv
      rcases h.owners_cases with ⟨-, mode⟩ | ⟨-, mode, -⟩ | ⟨o, owners, -, mode⟩
      · rw [mode] at conflict
        cases v.type <;> cases conflict
      · left
        refine ⟨v, List.mem_of_mem_head? hv, ?_⟩
        rw [mode] at conflict
        exact conflict
      · right
        rw [mode, owners]
        exact ⟨List.cons_ne_nil _ _, rfl⟩

/-! ### Granting -/

/-- Granting one waiter is granting from the state in which it is an owner. -/
theorem grant_cons {w : Request τ} {owners ws : List (Request τ)}
    (free : conflictLock (modeOf owners) w.type = false) :
    (Queue.mk owners (w :: ws)).grant = (Queue.mk (w :: owners) ws).grant := by
  simp [grant, granted, free]

theorem grant_of_blocked (h : q.Blocked) : q.grant = q := by
  obtain ⟨owners, waiters⟩ := q
  cases waiters with
  | nil => simp [grant, granted]
  | cons w ws => simp [grant, granted, h w (by simp)]

theorem consistent_move {w : Request τ} {owners ws : List (Request τ)}
    (h : (Queue.mk owners (w :: ws)).Consistent)
    (free : conflictLock (modeOf owners) w.type = false) :
    (Queue.mk (w :: owners) ws).Consistent := by
  have swap : (owners ++ w :: ws).Perm ((w :: owners) ++ ws) := List.perm_middle
  have distinct : (((w :: owners) ++ ws).map (·.txn)).Nodup :=
    (swap.map _).nodup_iff.mp h.distinct
  have rest : (Queue.mk owners ws).Consistent :=
    { distinct := (List.nodup_cons.mp distinct).2
      real := fun p hp => h.real p (swap.symm.subset (List.mem_cons_of_mem w hp))
      compatible := h.compatible }
  exact rest.join (h.real w (by simp [requests])) (List.nodup_cons.mp distinct).1 free

/-- After granting, the queue is sound again. -/
theorem Consistent.grant (h : q.Consistent) : q.grant.Sound := by
  obtain ⟨owners, waiters⟩ := q
  -- waiters are granted from the head until one conflicts
  induction waiters generalizing owners with
  | nil => exact ⟨by simpa [Queue.grant, granted] using h, by simp [Queue.grant, granted, Blocked]⟩
  | cons w ws ih =>
    cases free : conflictLock (modeOf owners) w.type with
    | true =>
      have blocked : (Queue.mk owners (w :: ws)).Blocked := by
        intro p hp
        cases hp
        exact free
      rw [grant_of_blocked blocked]
      exact ⟨h, blocked⟩
    | false =>
      rw [grant_cons free]
      exact ih _ (consistent_move h free)

/-! ### The operations keep a sound queue -/

theorem perm_enqueue (ts : τ → Nat) (ws : List (Request τ)) :
    (enqueue ts r ws).Perm (r :: ws) := by
  have split := List.takeWhile_append_dropWhile (p := fun w => ts r.txn < ts w.txn) (l := ws)
  conv_rhs => rw [← split]
  exact List.perm_middle

/-- The position behind all older waiters, given by the two parts of the list. -/
theorem enqueue_append {ts : τ → Nat} {front back : List (Request τ)}
    (young : ∀ w ∈ front, ts r.txn < ts w.txn) (old : ∀ w ∈ back.head?, ¬ ts r.txn < ts w.txn) :
    enqueue ts r (front ++ back) = front ++ r :: back := by
  induction front with
  | nil =>
    cases back with
    | nil => rfl
    | cons w back =>
      have := old w rfl
      simp [enqueue, this]
  | cons w front ih =>
    have first := young w List.mem_cons_self
    have rest := ih fun v hv => young v (List.mem_cons_of_mem _ hv)
    simp only [enqueue] at rest
    simp [enqueue, first, rest]

theorem Consistent.wait (h : q.Consistent) (real : r.type ≠ .lockNone)
    (new : r.txn ∉ q.requests.map (·.txn)) {ws : List (Request τ)} (perm : ws.Perm (r :: q.waiters)) :
    Consistent { q with waiters := ws } := by
  have all : (q.owners ++ ws).Perm (r :: q.requests) :=
    (perm.append_left q.owners).trans List.perm_middle
  refine ⟨?_, fun p hp => ?_, h.compatible⟩
  · exact (all.map _).nodup_iff.mpr (List.nodup_cons.mpr ⟨new, h.distinct⟩)
  · rcases List.mem_cons.mp (all.subset hp) with rfl | hp
    · exact real
    · exact h.real p hp

theorem head_enqueue {ts : τ → Nat} {ws : List (Request τ)} {w : Request τ}
    (mem : w ∈ (enqueue ts r ws).head?) :
    (w = r ∧ ∀ v ∈ ws.head?, ¬ ts r.txn < ts v.txn) ∨ w ∈ ws.head? := by
  cases ws with
  | nil =>
    left
    simpa [enqueue, eq_comm] using mem
  | cons v ws =>
    by_cases older : ts r.txn < ts v.txn
    · right
      simpa [enqueue, older] using mem
    · left
      simp only [enqueue, List.takeWhile_cons, List.dropWhile_cons, older] at mem
      exact ⟨by simpa [eq_comm] using mem, by simpa using older⟩

theorem Sound.get (alg : CcAlg) (ts : τ → Nat) (h : q.Sound) (real : r.type ≠ .lockNone)
    (new : r.txn ∉ q.requests.map (·.txn)) : (q.get alg ts r).2.Sound := by
  unfold Queue.get
  split
  · next waits =>
    cases alg with
    | noWait => exact h
    | dlDetect =>
      refine ⟨h.wait real new (List.perm_append_singleton r _), fun w hw => ?_⟩
      -- The new request is the first one only if nobody waited before.
      rcases none : q.waiters with _ | ⟨v, ws⟩
      · rcases waits with waits | ⟨e, -⟩ | ⟨-, some⟩
        · simp only [none, List.nil_append, List.head?_cons, Option.mem_some_iff] at hw
          exact hw ▸ waits
        · cases e
        · exact absurd none some
      · refine h.blocked w ?_
        simpa [none] using hw
    | waitDie =>
      dsimp only
      split
      · exact h
      · refine ⟨h.wait real new (perm_enqueue ts q.waiters), fun w hw => ?_⟩
        rcases head_enqueue hw with ⟨rfl, youngest⟩ | hw
        · -- It is not older than anyone who waits, so it waits for the owners.
          rcases waits with waits | ⟨-, v, hv, older⟩ | ⟨e, -⟩
          · exact waits
          · exact absurd older (youngest v hv)
          · cases e
        · exact h.blocked w hw
  · next free =>
    have apart : conflictLock (modeOf q.owners) r.type = false := by
      by_contra conflict
      exact free (.inl (by simpa using conflict))
    refine ⟨h.join real new apart, fun w hw => ?_⟩
    -- Someone waits, so there are owners, and the new owner has their mode.
    have conflict := h.blocked w hw
    rcases conflictLock_false_iff.mp apart with e | e | ⟨sh, e⟩
    · rw [e] at conflict
      cases w.type <;> cases conflict
    · exact absurd e real
    · rw [modeOf_cons, e, ← sh]
      exact conflict

section Remove

variable [DecidableEq τ] {t : τ}

theorem Consistent.remove (h : q.Consistent) : (q.remove t).Consistent := by
  unfold Queue.remove
  split
  · have less : (q.owners.eraseP (·.txn = t)).Sublist q.owners := List.eraseP_sublist
    have all := less.append_right q.waiters
    exact ⟨h.distinct.sublist (all.map _), fun p hp => h.real p (all.subset hp),
      h.compatible.sublist less⟩
  · have less : (q.waiters.eraseP (·.txn = t)).Sublist q.waiters := List.eraseP_sublist
    have all := less.append_left q.owners
    exact ⟨h.distinct.sublist (all.map _), fun p hp => h.real p (all.subset hp), h.compatible⟩

theorem Consistent.release (h : q.Consistent) : (q.release t).Sound := h.remove.grant

end Remove

/-! ### Who owns and who waits after an operation -/

theorem Consistent.apart (h : q.Consistent) {o w : Request τ} (ho : o ∈ q.owners)
    (hw : w ∈ q.waiters) : o.txn ≠ w.txn := by
  have distinct := h.distinct
  rw [requests, List.map_append, List.nodup_append] at distinct
  exact distinct.2.2 _ (List.mem_map_of_mem ho) _ (List.mem_map_of_mem hw)

/-- What `get` answers, and where the request is after it. -/
theorem get_cases (alg : CcAlg) (ts : τ → Nat) (q : Queue τ) (r : Request τ) :
    q.get alg ts r = (.Abort, q) ∨
    (∃ ws, q.get alg ts r = (.WAIT, { q with waiters := ws }) ∧ ws.Perm (r :: q.waiters)) ∨
    q.get alg ts r = (.RCOK, { q with owners := r :: q.owners }) := by
  unfold Queue.get
  split
  · cases alg with
    | noWait => exact .inl rfl
    | dlDetect => exact .inr (.inl ⟨_, rfl, List.perm_append_singleton r _⟩)
    | waitDie =>
      dsimp only
      split
      · exact .inl rfl
      · exact .inr (.inl ⟨_, rfl, perm_enqueue ts q.waiters⟩)
  · exact .inr (.inr rfl)

theorem mem_get_owners {alg : CcAlg} {ts : τ → Nat} {p : Request τ} :
    p ∈ (q.get alg ts r).2.owners ↔ p ∈ q.owners ∨ (p = r ∧ (q.get alg ts r).1 = .RCOK) := by
  rcases get_cases alg ts q r with e | ⟨ws, e, -⟩ | e
  all_goals rw [e]
  · simp
  · simp
  · simp [or_comm]

theorem mem_get_requests {alg : CcAlg} {ts : τ → Nat} {p : Request τ} :
    p ∈ (q.get alg ts r).2.requests ↔
      p ∈ q.requests ∨ (p = r ∧ (q.get alg ts r).1 ≠ .Abort) := by
  rcases get_cases alg ts q r with e | ⟨ws, e, perm⟩ | e
  all_goals rw [e]
  · simp
  · simp only [requests, List.mem_append, perm.mem_iff, List.mem_cons, ne_eq, reduceCtorEq,
      not_false_eq_true, and_true]
    tauto
  · simp only [requests, List.mem_append, List.mem_cons, ne_eq, reduceCtorEq, not_false_eq_true,
      and_true]
    tauto

theorem granted_append (mode : LockType) (ws : List (Request τ)) :
    granted mode ws ++ ws.drop (granted mode ws).length = ws := by
  induction ws generalizing mode with
  | nil => rfl
  | cons w ws ih =>
    rw [granted]
    split
    · rfl
    · rw [List.cons_append, List.length_cons, List.drop_succ_cons, ih]

theorem mem_grant_owners {p : Request τ} :
    p ∈ q.grant.owners ↔ p ∈ granted (modeOf q.owners) q.waiters ∨ p ∈ q.owners := by
  simp [Queue.grant]

theorem mem_waiters_iff {p : Request τ} :
    p ∈ q.waiters ↔ p ∈ granted (modeOf q.owners) q.waiters ∨ p ∈ q.grant.waiters := by
  have split := granted_append (modeOf q.owners) q.waiters
  conv_lhs => rw [← split]
  exact List.mem_append

theorem mem_grant_requests {p : Request τ} : p ∈ q.grant.requests ↔ p ∈ q.requests := by
  rw [requests, requests, List.mem_append, List.mem_append, mem_grant_owners,
    mem_waiters_iff (q := q)]
  tauto

section Remove

variable [DecidableEq τ] {t : τ}

theorem mem_eraseP {rs : List (Request τ)} (distinct : (rs.map (·.txn)).Nodup) {p : Request τ} :
    p ∈ rs.eraseP (·.txn = t) ↔ p ∈ rs ∧ p.txn ≠ t := by
  induction rs with
  | nil => simp
  | cons r rs ih =>
    obtain ⟨apart, rest⟩ := List.nodup_cons.mp distinct
    by_cases e : r.txn = t
    · rw [List.eraseP_cons_of_pos (by simpa using e), List.mem_cons]
      constructor
      · intro mem
        exact ⟨.inr mem, fun e' => apart (List.mem_map.mpr ⟨p, mem, e'.trans e.symm⟩)⟩
      · rintro ⟨rfl | mem, ne⟩
        · exact absurd e ne
        · exact mem
    · rw [List.eraseP_cons_of_neg (by simpa using e), List.mem_cons, ih rest, List.mem_cons]
      constructor
      · rintro (rfl | ⟨mem, ne⟩)
        · exact ⟨.inl rfl, e⟩
        · exact ⟨.inr mem, ne⟩
      · rintro ⟨rfl | mem, ne⟩
        · exact .inl rfl
        · exact .inr ⟨mem, ne⟩

theorem Consistent.mem_remove_owners (h : q.Consistent) {p : Request τ} :
    p ∈ (q.remove t).owners ↔ p ∈ q.owners ∧ p.txn ≠ t := by
  have distinct := h.distinct
  rw [requests, List.map_append, List.nodup_append] at distinct
  unfold Queue.remove
  split
  · exact mem_eraseP distinct.1
  · next none => exact ⟨fun mem => ⟨mem, fun e => none ⟨p, mem, e⟩⟩, And.left⟩

theorem Consistent.mem_remove_waiters (h : q.Consistent) {p : Request τ} :
    p ∈ (q.remove t).waiters ↔ p ∈ q.waiters ∧ p.txn ≠ t := by
  have distinct := h.distinct
  rw [requests, List.map_append, List.nodup_append] at distinct
  unfold Queue.remove
  split
  · next owner =>
    obtain ⟨o, ho, e⟩ := owner
    exact ⟨fun mem => ⟨mem, fun e' => h.apart ho mem (e.trans e'.symm)⟩, And.left⟩
  · exact mem_eraseP distinct.2.1

theorem Consistent.mem_release_owners (h : q.Consistent) {p : Request τ} (mem : p ∈ q.owners)
    (ne : p.txn ≠ t) : p ∈ (q.release t).owners :=
  mem_grant_owners.mpr (.inr (h.mem_remove_owners.mpr ⟨mem, ne⟩))

/-- A release takes out the request of the transaction and no other. -/
theorem Consistent.mem_release (h : q.Consistent) {p : Request τ} :
    p ∈ (q.release t).requests ↔ p ∈ q.requests ∧ p.txn ≠ t := by
  rw [Queue.release, mem_grant_requests, requests, List.mem_append, h.mem_remove_owners,
    h.mem_remove_waiters, requests, List.mem_append]
  tauto

end Remove

/-! ### Timestamps -/

/-- Waiters are older than owners, and each is older than those before it. -/
structure Aged (ts : τ → Nat) (q : Queue τ) : Prop where
  sorted : q.waiters.Pairwise fun v w => ts w.txn < ts v.txn
  older : ∀ w ∈ q.waiters, ∀ o ∈ q.owners, ts w.txn < ts o.txn

variable {ts : τ → Nat}

theorem Aged.move {w : Request τ} {owners ws : List (Request τ)}
    (h : Aged ts ⟨owners, w :: ws⟩) : Aged ts ⟨w :: owners, ws⟩ := by
  obtain ⟨first, rest⟩ := List.pairwise_cons.mp h.sorted
  refine ⟨rest, fun v hv o ho => ?_⟩
  rcases List.mem_cons.mp ho with rfl | ho
  · exact first v hv
  · exact h.older v (List.mem_cons_of_mem w hv) o ho

theorem Aged.grant (h : Aged ts q) : Aged ts q.grant := by
  obtain ⟨owners, waiters⟩ := q
  induction waiters generalizing owners with
  | nil => simpa [Queue.grant, granted] using h
  | cons w ws ih =>
    cases free : conflictLock (modeOf owners) w.type with
    | true =>
      rw [grant_of_blocked (by rintro p hp; cases hp; exact free)]
      exact h
    | false =>
      rw [grant_cons free]
      exact ih _ h.move

theorem Aged.release [DecidableEq τ] {t : τ} (h : Aged ts q) : Aged ts (q.release t) := by
  apply Aged.grant
  unfold Queue.remove
  split
  · exact ⟨h.sorted, fun w hw o ho => h.older w hw o (List.mem_of_mem_eraseP ho)⟩
  · exact ⟨h.sorted.sublist List.eraseP_sublist,
      fun w hw => h.older w (List.mem_of_mem_eraseP hw)⟩

theorem sorted_enqueue {ws : List (Request τ)}
    (sorted : ws.Pairwise fun v w => ts w.txn < ts v.txn) (new : ∀ w ∈ ws, ts w.txn ≠ ts r.txn) :
    (enqueue ts r ws).Pairwise fun v w => ts w.txn < ts v.txn := by
  induction ws with
  | nil => simp [enqueue]
  | cons v ws ih =>
    obtain ⟨first, rest⟩ := List.pairwise_cons.mp sorted
    -- it stands before the first waiter that is not younger
    by_cases older : ts r.txn < ts v.txn
    · have behind : enqueue ts r (v :: ws) = v :: enqueue ts r ws := by simp [enqueue, older]
      rw [behind]
      refine List.pairwise_cons.mpr ⟨fun w hw => ?_, ih rest fun w hw => new w (by simp [hw])⟩
      rcases List.mem_cons.mp ((perm_enqueue ts ws).subset hw) with rfl | hw
      · exact older
      · exact first w hw
    · have front : enqueue ts r (v :: ws) = r :: v :: ws := by simp [enqueue, older]
      have apart := new v List.mem_cons_self
      rw [front]
      refine List.pairwise_cons.mpr ⟨fun w hw => ?_, sorted⟩
      rcases List.mem_cons.mp hw with rfl | hw
      · omega
      · have := first w hw
        omega

theorem Aged.enqueue (h : Aged ts q) (new : ∀ w ∈ q.waiters, ts w.txn ≠ ts r.txn)
    (oldest : ∀ o ∈ q.owners, ts r.txn < ts o.txn) :
    Aged ts { q with waiters := enqueue ts r q.waiters } := by
  refine ⟨sorted_enqueue h.sorted new, fun w hw o ho => ?_⟩
  rcases List.mem_cons.mp ((perm_enqueue ts q.waiters).subset hw) with rfl | hw
  · exact oldest o ho
  · exact h.older w hw o ho

/-- The first waiter is the youngest one. -/
theorem Aged.le_head (h : Aged ts q) {v w : Request τ} (hv : v ∈ q.waiters.head?)
    (hw : w ∈ q.waiters) : ts w.txn ≤ ts v.txn := by
  have sorted := h.sorted
  rcases some : q.waiters with _ | ⟨u, ws⟩
  · rw [some] at hw
    cases hw
  · rw [some] at hv hw sorted
    cases hv
    rcases List.mem_cons.mp hw with rfl | hw
    · exact Nat.le_refl _
    · exact Nat.le_of_lt ((List.pairwise_cons.mp sorted).1 w hw)

theorem Aged.get (h : Aged ts q) (new : ∀ p ∈ q.requests, ts p.txn ≠ ts r.txn) :
    Aged ts (q.get .waitDie ts r).2 := by
  unfold Queue.get
  split
  · dsimp only
    split
    · exact h
    · -- nobody who owns the lock is older
      next none =>
      refine h.enqueue (fun w hw => new w (by simp [requests, hw])) fun o ho => ?_
      have apart := new o (by simp [requests, ho])
      have notOlder : ¬ ts o.txn < ts r.txn := fun lt => none ⟨o, ho, lt⟩
      omega
  · next free =>
    refine ⟨h.sorted, fun w hw o ho => ?_⟩
    rcases List.mem_cons.mp ho with rfl | ho
    · -- Otherwise the new owner would have to wait for the first waiter.
      rcases some : q.waiters with _ | ⟨v, ws⟩
      · rw [some] at hw
        cases hw
      · have head : v ∈ q.waiters.head? := by simp [some]
        have notOlder : ¬ ts o.txn < ts v.txn :=
          fun lt => free (.inr (.inl ⟨rfl, v, head, lt⟩))
        have := h.le_head head hw
        have := new v (by simp [requests, some])
        omega
    · exact h.older w hw o ho

end Queue

end DBx1000.Locking
