import DBx1000.Epoch.Sections

/-!
# Where retired nodes are

A retired node is in the pending list of a thread, in one of the global stacks, in the
list of a thread that reclaims, or in the hands of a thread that is about to link or to
destroy it, and in one of these only. What is in the lists of a slot was retired in an
epoch of that slot.
-/

namespace DBx1000.Epoch

open Transition LinkedList

variable {τ ν : Type*}

/-- The lists: one for each slot of each thread, the stacks, and the two lists that
`try_gc` joins. -/
inductive Place (τ : Type*)
  | stack (e : Nat)
  | slot (t : τ) (e : Nat)
  | taken (t : τ)
  | behind (t : τ)

/-- What is left of `pending[e]`. -/
def Pc.pending (p : Pc τ ν) (pending : Nat → Option ν) (e : Nat) : Option ν :=
  match p with
  | .drain e' node => if e = e' then node else pending e
  | .stackHead e' _ next | .stackLink e' _ next _ | .stackCas e' _ next _ =>
    if e = e' then next else pending e
  | _ => pending e

def Pc.taken : Pc τ ν → Option ν
  | .gcTail _ toFree _ _ | .gcJoin _ toFree _ _ => some toFree
  | .reclaim _ list => list
  | .destroy _ _ next => next
  | _ => none

def Pc.behind : Pc τ ν → Option ν
  | .gcTail _ _ _ lcl | .gcJoin _ _ _ lcl => some lcl
  | _ => none

/-- The node that a thread has taken off one list and not yet put on another. -/
def Pc.hand : Pc τ ν → Option ν
  | .retireLink ptr _ | .retirePush ptr _ => some ptr
  | .stackHead _ node _ | .stackLink _ node _ _ | .stackCas _ node _ _ => some node
  | .destroy _ list _ => some list
  | _ => none

/-- The node in hand that will be put on a list. -/
def Pc.carries : Pc τ ν → Option ν
  | .retireLink ptr _ | .retirePush ptr _ => some ptr
  | .stackHead _ node _ | .stackLink _ node _ _ | .stackCas _ node _ _ => some node
  | _ => none

theorem Pc.hand_of_carries {p : Pc τ ν} {n : ν} (h : p.carries = some n) : p.hand = some n := by
  cases p <;> first | exact h | cases h

/-- The epoch in which a reclaiming thread started. -/
def Pc.cur : Pc τ ν → Nat
  | .gcTail cur _ _ _ | .gcJoin cur _ _ _ | .reclaim cur _ | .destroy cur _ _ => cur
  | _ => 0

def State.head (s : State τ ν) : Place τ → Option ν
  | .stack e => s.retired e
  | .slot t e => (s.pc t).pending (s.ctx t).pending e
  | .taken t => (s.pc t).taken
  | .behind t => (s.pc t).behind

def State.hand (s : State τ ν) (t : τ) : Option ν := (s.pc t).hand

/-- The nodes that may be in a list. -/
def State.belongs (s : State τ ν) (n : ν) : Place τ → Prop
  | .stack e | .slot _ e => s.retireEpoch n % ebrEpochCount = e
  | .taken t | .behind t => s.retireEpoch n < (s.pc t).cur

/-- What a thread knows about the node in its hand. -/
def State.fits (s : State τ ν) (n : ν) : Pc τ ν → Prop
  | .retireLink _ cur | .retirePush _ cur => s.retireEpoch n = cur
  | .stackHead e _ _ | .stackLink e _ _ _ | .stackCas e _ _ _ =>
    s.retireEpoch n % ebrEpochCount = e
  | .destroy cur _ _ => s.retireEpoch n < cur
  | _ => True

/-- The stores that a thread relies on, and its walk through the list `cells`. -/
def State.linked (s : State τ ν) (t : τ) (cells : List ν) : Pc τ ν → Prop
  | .retirePush ptr cur => s.gcNext ptr = (s.ctx t).pending (retireSlot cur).toNat
  | .stackCas _ node _ old => s.gcNext node = old
  | .gcTail _ _ tail _ => tail ∈ cells
  | .gcJoin _ _ tail _ => tail ∈ cells ∧ s.gcNext tail = none
  | _ => True

/-- The places where a thread holds nothing but its pending lists. -/
def Pc.plain : Pc τ ν → Bool
  | .retireLink _ _ | .retirePush _ _ | .gcTail _ _ _ _ | .gcJoin _ _ _ _ | .reclaim _ _ |
    .destroy _ _ _ | .drain _ _ | .stackHead _ _ _ | .stackLink _ _ _ _ | .stackCas _ _ _ _ => false
  | _ => true

structure Lists (s : State τ ν) (lists : Place τ → List ν) : Prop where
  apart : Apart s.gcNext s.head s.hand lists
  belongs : ∀ p n, n ∈ lists p → s.belongs n p ∧ s.retiredAt n ≠ none
  fits : ∀ t n, s.hand t = some n → s.fits n (s.pc t) ∧ s.retiredAt n ≠ none
  linked : ∀ t, s.linked t (lists (.taken t)) (s.pc t)

/-- The lists, whatever the order of the steps: what is said about epochs holds in timely
runs, those in which a winner takes its lists before the epoch moves on. -/
structure Placed (timely : Prop) (s : State τ ν) (lists : Place τ → List ν) : Prop where
  apart : Apart s.gcNext s.head s.hand lists
  belongs : ∀ p n, n ∈ lists p → (timely → s.belongs n p) ∧ s.retiredAt n ≠ none
  fits : ∀ t n, s.hand t = some n → (timely → s.fits n (s.pc t)) ∧ s.retiredAt n ≠ none
  linked : ∀ t, s.linked t (lists (.taken t)) (s.pc t)

theorem placed_iff {s : State τ ν} {lists : Place τ → List ν} :
    Placed True s lists ↔ Lists s lists := by
  constructor
  · intro h
    exact ⟨h.apart, fun p n hn => ⟨(h.belongs p n hn).1 trivial, (h.belongs p n hn).2⟩,
      fun t n hn => ⟨(h.fits t n hn).1 trivial, (h.fits t n hn).2⟩, h.linked⟩
  · intro h
    exact ⟨h.apart, fun p n hn => ⟨fun _ => (h.belongs p n hn).1, (h.belongs p n hn).2⟩,
      fun t n hn => ⟨fun _ => (h.fits t n hn).1, (h.fits t n hn).2⟩, h.linked⟩

/-- The node is in a list or in the hands of a thread. -/
def State.somewhere (s : State τ ν) (lists : Place τ → List ν) (n : ν) : Prop :=
  (∃ p, n ∈ lists p) ∨ ∃ t, s.hand t = some n

/-- The nodes that are somewhere are those that have been retired and not destroyed. -/
structure Whole (s : State τ ν) (lists : Place τ → List ν) : Prop where
  here : ∀ n, s.somewhere lists n ↔ s.retiredAt n ≠ none ∧ s.destroyed n = false
  retired : ∀ n, s.destroyed n = true → s.retiredAt n ≠ none

/-- What a step of `t` does to the lists: it drops nothing, unless `t` has pending nodes before
it has registered, and only a node that `t` carries gets into a list other than the private
ones of `t`. -/
structure Moved (s s' : State τ ν) (t : τ) (lists lists' : Place τ → List ν) : Prop where
  whole : (s.pc t = .fresh → ∀ e, (s.ctx t).pending e = none) → Whole s lists → Whole s' lists'
  origin : ∀ p n, n ∈ lists' p →
    n ∈ lists p ∨ (s.pc t).carries = some n ∨ p = .taken t ∨ p = .behind t

/-- Nothing is retired or destroyed, and the nodes stay somewhere. -/
theorem Whole.of_somewhere {s s' : State τ ν} {lists lists' : Place τ → List ν}
    (h : Whole s lists) (gone : s'.retiredAt = s.retiredAt) (destroyed : s'.destroyed = s.destroyed)
    (same : ∀ n, s'.somewhere lists' n ↔ s.somewhere lists n) : Whole s' lists' where
  here n := by rw [same, h.here, gone, destroyed]
  retired n hn := by
    rw [destroyed] at hn
    rw [gone]
    exact h.retired n hn

/-- What the hand of `t` holds, the hands of the others being the same. -/
theorem exists_hand_iff {s : State τ ν} {t : τ} {n : ν} :
    (∃ u, s.hand u = some n) ↔ s.hand t = some n ∨ ∃ u, u ≠ t ∧ s.hand u = some n := by
  constructor
  · rintro ⟨u, hu⟩
    by_cases e : u = t
    · exact .inl (e ▸ hu)
    · exact .inr ⟨u, e, hu⟩
  · rintro (h | ⟨u, -, hu⟩)
    · exact ⟨t, h⟩
    · exact ⟨u, hu⟩

namespace Placed

variable {timely : Prop} {s s' : State τ ν} {lists lists' : Place τ → List ν} {t : τ}

theorem head_eq [DecidableEq τ] {c : Ctx ν} {p : Pc τ ν}
    (pc : s'.pc = Function.update s.pc t p) (ctx : s'.ctx = Function.update s.ctx t c) {q : Place τ}
    (stack : ∀ e, q = .stack e → s'.retired e = s.retired e)
    (slot : ∀ e, q = .slot t e →
      p.pending c.pending e = (s.pc t).pending (s.ctx t).pending e)
    (taken : q = .taken t → p.taken = (s.pc t).taken)
    (behind : q = .behind t → p.behind = (s.pc t).behind) : s'.head q = s.head q := by
  cases q with
  | stack e => exact stack e rfl
  | slot u e =>
    by_cases h : u = t
    · subst h; simp only [State.head, pc, ctx, Function.update_self]; exact slot e rfl
    · simp only [State.head, pc, ctx, Function.update_of_ne h]
  | taken u =>
    by_cases h : u = t
    · subst h; simp only [State.head, pc, Function.update_self]; exact taken rfl
    · simp only [State.head, pc, Function.update_of_ne h]
  | behind u =>
    by_cases h : u = t
    · subst h; simp only [State.head, pc, Function.update_self]; exact behind rfl
    · simp only [State.head, pc, Function.update_of_ne h]

theorem hand_of_ne [DecidableEq τ] {p : Pc τ ν} (pc : s'.pc = Function.update s.pc t p) (u : τ)
    (other : u ≠ t) : s'.hand u = s.hand u := by
  simp only [State.hand, pc, Function.update_of_ne other]

theorem hand_self [DecidableEq τ] {p : Pc τ ν} (pc : s'.pc = Function.update s.pc t p) :
    s'.hand t = p.hand := by
  simp only [State.hand, pc, Function.update_self]

theorem exists_other_hand [DecidableEq τ] {p : Pc τ ν} (pc : s'.pc = Function.update s.pc t p)
    {n : ν} : (∃ u, u ≠ t ∧ s'.hand u = some n) ↔ ∃ u, u ≠ t ∧ s.hand u = some n := by
  constructor
  · rintro ⟨u, hu, h⟩
    exact ⟨u, hu, hand_of_ne pc u hu ▸ h⟩
  · rintro ⟨u, hu, h⟩
    exact ⟨u, hu, (hand_of_ne pc u hu).symm ▸ h⟩

/-- A node stays where it belongs while only `t` moves. -/
theorem belongs_kept [DecidableEq τ] {p : Pc τ ν} (pc : s'.pc = Function.update s.pc t p) {n : ν}
    (epoch : s'.retireEpoch n = s.retireEpoch n)
    {q : Place τ} (cur : q = .taken t ∨ q = .behind t → (s.pc t).cur = p.cur)
    (h : s.belongs n q) : s'.belongs n q := by
  cases q with
  | stack e => simpa only [State.belongs, epoch] using h
  | slot u e => simpa only [State.belongs, epoch] using h
  | taken u =>
    simp only [State.belongs, epoch, pc, Function.update_apply] at h ⊢
    split
    · next e => subst e; rwa [← cur (.inl rfl)]
    · exact h
  | behind u =>
    simp only [State.belongs, epoch, pc, Function.update_apply] at h ⊢
    split
    · next e => subst e; rwa [← cur (.inr rfl)]
    · exact h

theorem Pc.pending_of_plain {p : Pc τ ν} (h : p.plain = true) (pending : Nat → Option ν) (e : Nat) :
    p.pending pending e = pending e := by
  cases p <;> first | rfl | cases h

theorem Pc.empty_of_plain {p : Pc τ ν} (h : p.plain = true) :
    p.taken = none ∧ p.behind = none ∧ p.hand = none ∧ p.cur = 0 := by
  cases p <;> first | exact ⟨rfl, rfl, rfl, rfl⟩ | cases h

theorem linked_of_plain {p : Pc τ ν} (h : p.plain = true) (cells : List ν) :
    s.linked t cells p := by
  cases p <;> trivial

/-- Who else relies on a successor relies on a node that `t` does not have. -/
theorem kept_of_ne (hi : Placed timely s lists) {u : τ} (other : u ≠ t)
    (stores : ∀ n, s'.gcNext n ≠ s.gcNext n → s.hand t = some n ∨ n ∈ lists (.taken t)) {n : ν}
    (theirs : s.hand u = some n ∨ n ∈ lists (.taken u)) : s'.gcNext n = s.gcNext n := by
  by_contra changed
  rcases stores n changed with mine | mine <;> rcases theirs with h | h
  · exact other (hi.apart.single u t n h mine)
  · exact hi.apart.outside t _ n mine h
  · exact hi.apart.outside u _ n h mine
  · have := hi.apart.disjoint _ _ n h mine
    cases this
    exact other rfl

variable [DecidableEq τ]

/-- A step of `t` keeps the invariant when what it does with its own lists is right. -/
theorem assemble (hi : Placed timely s lists) {c : Ctx ν} {p : Pc τ ν}
    (pc : s'.pc = Function.update s.pc t p) (ctx : s'.ctx = Function.update s.ctx t c)
    (epochs : ∀ n, s.retiredAt n ≠ none → s'.retireEpoch n = s.retireEpoch n ∧
      s'.retiredAt n ≠ none)
    (stores : ∀ n, s'.gcNext n ≠ s.gcNext n → s.hand t = some n ∨ n ∈ lists (.taken t))
    (apart : Apart s'.gcNext s'.head s'.hand lists')
    (belongs : ∀ q n, n ∈ lists' q → (timely → s'.belongs n q) ∧ s'.retiredAt n ≠ none)
    (fits : ∀ n, p.hand = some n → (timely → s'.fits n p) ∧ s'.retiredAt n ≠ none)
    (linked : s'.linked t (lists' (.taken t)) p)
    (others : ∀ u, u ≠ t → lists' (.taken u) = lists (.taken u)) : Placed timely s' lists' where
  apart := apart
  belongs := belongs
  fits u n h := by
    simp only [State.hand, pc, Function.update_apply] at h ⊢
    split at h
    · next e => rw [if_pos e]; exact fits n h
    · next e =>
      rw [if_neg e]
      obtain ⟨fit, gone⟩ := hi.fits u n h
      refine ⟨fun timely => ?_, (epochs n gone).2⟩
      have fit := fit timely
      -- where a node of another thread has to lie depends on its epoch alone
      revert fit
      cases s.pc u <;> simp only [State.fits, (epochs n gone).1] <;> exact id
  linked u := by
    by_cases e : u = t
    · subst e
      rw [pc, Function.update_self]
      exact linked
    · have link := hi.linked u
      have kept {n : ν} := hi.kept_of_ne e stores (n := n)
      rw [pc, Function.update_of_ne e, others u e]
      -- the links of another thread are those of nodes in its hand or in its list
      cases hu : s.pc u with
      | retirePush ptr cur =>
        simp only [hu, State.linked, ctx, Function.update_of_ne e] at link ⊢
        rw [kept (.inl (by rw [State.hand, hu]; rfl)), link]
      | stackCas _ node _ old =>
        simp only [hu, State.linked] at link ⊢
        rw [kept (.inl (by rw [State.hand, hu]; rfl)), link]
      | gcJoin _ _ tail _ =>
        simp only [hu, State.linked] at link ⊢
        rw [kept (.inr link.1)]
        exact link
      | gcTail _ _ tail _ => rw [hu] at link; exact link
      | _ => trivial

/-- A step between plain places, which clears the pending lists of an unregistered thread. -/
theorem plain (hi : Placed timely s lists) {c : Ctx ν} {p : Pc τ ν}
    (pc : s'.pc = Function.update s.pc t p) (ctx : s'.ctx = Function.update s.ctx t c)
    (next : s'.gcNext = s.gcNext) (stacked : s'.retired = s.retired)
    (epochs : s'.retireEpoch = s.retireEpoch) (gone : s'.retiredAt = s.retiredAt)
    (destroyed : s'.destroyed = s.destroyed)
    (before : (s.pc t).plain = true) (after : p.plain = true)
    (pending : ∀ e, c.pending e = (s.ctx t).pending e ∨ s.pc t = .fresh ∧ c.pending e = none) :
    ∃ lists', Placed timely s' lists' ∧ Moved s s' t lists lists' := by
  obtain ⟨taken, behind, hand, cur⟩ := Pc.empty_of_plain before
  obtain ⟨taken', behind', hand', cur'⟩ := Pc.empty_of_plain after
  obtain ⟨lists', apart, mem, same⟩ := hi.apart.forget s'.head fun q => by
    cases q with
    | slot u e =>
      by_cases h : u = t
      · subst h
        simp only [State.head, pc, ctx, Function.update_self, Pc.pending_of_plain before,
          Pc.pending_of_plain after]
        rcases pending e with same | ⟨-, none⟩
        · exact .inl same
        · exact .inr none
      · exact .inl (head_eq pc ctx nofun (fun e' he => by cases he; exact absurd rfl h) nofun nofun)
    | _ =>
      exact .inl (head_eq pc ctx (fun e _ => by rw [stacked]) nofun (fun _ => by rw [taken, taken'])
        (fun _ => by rw [behind, behind']))
  -- a plain step takes no node into the hand
  have free (u : τ) : s'.hand u = s.hand u ∨ s'.hand u = none := by
    by_cases h : u = t
    · subst h; exact .inr ((hand_self pc).trans hand')
    · exact .inl (hand_of_ne pc u h)
  refine ⟨lists', hi.assemble pc ctx (fun n h => by rw [epochs, gone]; exact ⟨rfl, h⟩)
    (fun n h => absurd (by rw [next]) h) (next ▸ apart.release free) (fun q n h => ?_)
    (fun n h => by rw [hand'] at h; cases h) (linked_of_plain after _) (fun u other => ?_), ?_, fun q n h => .inl (mem q n h)⟩
  · obtain ⟨fit, was⟩ := hi.belongs q n (mem q n h)
    exact ⟨fun timely => belongs_kept pc (by rw [epochs]) (fun _ => cur.trans cur'.symm)
      (fit timely), gone ▸ was⟩
  · exact same _ (head_eq pc ctx nofun nofun (fun e => by cases e; exact absurd rfl other) nofun)
  · intro clean whole
    -- no list changes, for a fresh context has empty slots
    have unchanged (e : Nat) : c.pending e = (s.ctx t).pending e := by
      rcases pending e with same | ⟨fresh, none⟩
      · exact same
      · rw [none, clean fresh e]
    have heads (q : Place τ) : s'.head q = s.head q :=
      head_eq pc ctx (fun e _ => by rw [stacked]) (fun e _ => by
        rw [Pc.pending_of_plain before, Pc.pending_of_plain after, unchanged e])
        (fun _ => by rw [taken, taken']) (fun _ => by rw [behind, behind'])
    have hands (u : τ) : s'.hand u = s.hand u := by
      by_cases h : u = t
      · subst h
        exact (hand_self pc).trans (hand'.trans hand.symm)
      · exact hand_of_ne pc u h
    refine whole.of_somewhere gone destroyed fun n => ?_
    simp only [State.somewhere, hands, fun q => same q (heads q)]

variable [DecidableEq ν]

/-- The call of `ebr_retire` takes a node that nobody has retired before. -/
theorem retire (hi : Placed timely s lists) (ready : s.pc t = .ready) {ptr : ν}
    (new : s.retiredAt ptr = none) : Placed timely (Epoch.retire s t ptr) lists ∧
      Moved s (Epoch.retire s t ptr) t lists lists := by
  have pc : (Epoch.retire s t ptr).pc = Function.update s.pc t (.retireLink ptr s.epoch) := rfl
  have ctx : (Epoch.retire s t ptr).ctx = Function.update s.ctx t (s.ctx t) :=
    (Function.update_eq_self t s.ctx).symm
  have epochs (n : ν) (h : s.retiredAt n ≠ none) :
      (Epoch.retire s t ptr).retireEpoch n = s.retireEpoch n ∧
        (Epoch.retire s t ptr).retiredAt n ≠ none := by
    have ne : n ≠ ptr := fun e => h (e ▸ new)
    simp only [Epoch.retire, Function.update_of_ne ne]
    exact ⟨trivial, h⟩
  -- the node comes into the hand, and all lists stay
  have heads : (Epoch.retire s t ptr).head = s.head := by
    funext q
    refine head_eq pc ctx (fun _ _ => rfl) ?_ ?_ ?_ <;> intros <;> rw [ready] <;> rfl
  refine ⟨hi.assemble pc ctx epochs (fun n h => absurd rfl h) ?_ (fun q n h => ?_) (fun n h => ?_)
    trivial (fun _ _ => rfl), ?_, fun _ _ => .inl⟩
  · rw [heads]
    exact hi.apart.take (fun q h => (hi.belongs q ptr h).2 new)
      (fun u h => (hi.fits u ptr h).2 new) (hand_self pc) (hand_of_ne pc)
  · obtain ⟨fit, was⟩ := hi.belongs q n h
    exact ⟨fun timely => belongs_kept pc (epochs n was).1 (fun _ => by rw [ready]; rfl) (fit timely),
      (epochs n was).2⟩
  · cases h
    simp [Epoch.retire, State.fits]
  · intro _ whole
    -- only a retired node is ever destroyed
    have undestroyed : s.destroyed ptr = false := by
      by_contra h
      rw [Bool.not_eq_false] at h
      exact whole.retired ptr h new
    have empty : s.hand t = none := by rw [State.hand, ready]; rfl
    constructor
    · intro n
      have before := whole.here n
      rw [State.somewhere, exists_hand_iff (t := t), hand_self pc]
      simp only [State.somewhere, exists_hand_iff (s := s) (t := t), empty] at before
      rw [exists_other_hand pc]
      by_cases e : n = ptr
      · subst e
        simp [Epoch.retire, Pc.hand, State.goto, undestroyed]
      · have ne : ¬ ptr = n := fun h => e h.symm
        simp only [Pc.hand, Option.some.injEq, ne, false_or]
        simpa [Epoch.retire, Function.update_of_ne e, State.goto] using before
    · intro n hn
      by_cases e : n = ptr
      · simp [Epoch.retire, e]
      · simp only [Epoch.retire, Function.update_of_ne e]
        exact whole.retired n hn

/-- What a thread does with the node in its hand changes no list before the push. -/
theorem store (hi : Placed timely s lists) {p : Pc τ ν} {n : ν} {b : Option ν}
    (pc : s'.pc = Function.update s.pc t p) (ctx : s'.ctx = s.ctx)
    (next : s'.gcNext = Function.update s.gcNext n b) (stacked : s'.retired = s.retired)
    (epochs : s'.retireEpoch = s.retireEpoch) (gone : s'.retiredAt = s.retiredAt)
    (destroyed : s'.destroyed = s.destroyed)
    (held : (s.pc t).hand = some n) (holds : p.hand = some n)
    (slot : ∀ e, p.pending (s.ctx t).pending e = (s.pc t).pending (s.ctx t).pending e)
    (taken : p.taken = (s.pc t).taken) (behind : p.behind = (s.pc t).behind)
    (cur : (s.pc t).cur = p.cur) (fits : s.fits n (s.pc t) → s'.fits n p)
    (linked : s'.linked t (lists (.taken t)) p) : Placed timely s' lists ∧ Moved s s' t lists lists := by
  have ctx' : s'.ctx = Function.update s.ctx t (s.ctx t) := by simpa using ctx
  have heads : s'.head = s.head := by
    funext q
    exact head_eq pc ctx' (fun _ _ => by rw [stacked]) (fun e _ => slot e) (fun _ => taken)
      (fun _ => behind)
  -- the link of a node in the hand is stored, so no list and no hand changes
  have hands (u : τ) : s'.hand u = s.hand u := by
    by_cases e : u = t
    · subst e
      rw [hand_self pc, holds]
      exact held.symm
    · exact hand_of_ne pc u e
  refine ⟨hi.assemble pc ctx' (fun n h => by rw [epochs, gone]; exact ⟨rfl, h⟩) (fun m h => ?_) ?_
    (fun q m h => ?_) (fun m h => ?_) linked (fun _ _ => rfl), fun _ whole => ?_,
    fun _ _ => .inl⟩
  · by_cases e : m = n
    · exact .inl (e ▸ held)
    · rw [next, Function.update_of_ne e] at h; exact absurd rfl h
  · rw [heads, next]
    exact (hi.apart.store held).release fun u => .inl (hands u)
  · obtain ⟨fit, was⟩ := hi.belongs q m h
    exact ⟨fun timely => belongs_kept pc (by rw [epochs]) (fun _ => cur) (fit timely), gone ▸ was⟩
  · rw [holds] at h
    cases h
    exact ⟨fun timely => fits ((hi.fits t n held).1 timely), gone ▸ (hi.fits t n held).2⟩
  · refine whole.of_somewhere gone destroyed fun m => ?_
    simp only [State.somewhere, hands]

/-- The node in hand has been destroyed. -/
theorem drop (hi : Placed timely s lists) {p : Pc τ ν} {n : ν}
    (pc : s'.pc = Function.update s.pc t p) (gone : s'.retiredAt = s.retiredAt)
    (held : (s.pc t).hand = some n) (none : p.hand = none)
    (destroyed : s'.destroyed = Function.update s.destroyed n true) (whole : Whole s lists) :
    Whole s' lists where
  here m := by
    have before := whole.here m
    rw [State.somewhere, exists_hand_iff (t := t)] at before ⊢
    rw [hand_self pc, none, gone, destroyed]
    rw [show s.hand t = some n from held] at before
    rw [exists_other_hand pc]
    by_cases e : m = n
    · -- it was in no list and in no other hand
      subst e
      rw [Function.update_self]
      constructor
      · rintro (⟨q, hq⟩ | h | ⟨u, hu, h⟩)
        · exact absurd hq (hi.apart.outside t q m held)
        · cases h
        · exact absurd (hi.apart.single u t m h held) hu
      · exact fun h => absurd h.2 (by simp)
    · -- any other node is where it was
      have ne : ¬ n = m := fun h => e h.symm
      rw [Function.update_of_ne e, ← before]
      simp [ne]
  retired m hm := by
    rw [gone]
    rw [destroyed, Function.update_apply] at hm
    split at hm
    · next e => exact e ▸ (hi.fits t n held).2
    · exact whole.retired m hm

/-- A step that changes no list; the node in hand may be gone afterwards. -/
theorem keep (hi : Placed timely s lists) {c : Ctx ν} {p : Pc τ ν}
    (pc : s'.pc = Function.update s.pc t p) (ctx : s'.ctx = Function.update s.ctx t c)
    (next : s'.gcNext = s.gcNext) (stacked : s'.retired = s.retired)
    (epochs : s'.retireEpoch = s.retireEpoch) (gone : s'.retiredAt = s.retiredAt)
    (hand : p.hand = (s.pc t).hand ∧ s'.destroyed = s.destroyed ∨
      ∃ n, (s.pc t).hand = some n ∧ p.hand = none ∧
        s'.destroyed = Function.update s.destroyed n true)
    (slot : ∀ e, p.pending c.pending e = (s.pc t).pending (s.ctx t).pending e)
    (taken : p.taken = (s.pc t).taken) (behind : p.behind = (s.pc t).behind)
    (cur : (s.pc t).cur = p.cur ∨ p.taken = none ∧ p.behind = none)
    (fits : ∀ n, s.fits n (s.pc t) → s'.fits n p)
    (linked : s'.linked t (lists (.taken t)) p) : Placed timely s' lists ∧ Moved s s' t lists lists := by
  -- the lists stay, and the hand does or becomes empty
  have heads : s'.head = s.head := by
    funext q
    exact head_eq pc ctx (fun _ _ => by rw [stacked]) (fun e _ => slot e) (fun _ => taken)
      (fun _ => behind)
  have less : p.hand = (s.pc t).hand ∨ p.hand = none := by
    rcases hand with ⟨same, -⟩ | ⟨n, -, none, -⟩
    · exact .inl same
    · exact .inr none
  refine ⟨hi.assemble pc ctx (fun n h => by rw [epochs, gone]; exact ⟨rfl, h⟩)
    (fun n h => absurd (by rw [next]) h) ?_ (fun q n h => ?_) (fun n h => ?_) linked
    (fun _ _ => rfl), fun _ whole => ?_, fun _ _ => .inl⟩
  · rw [heads, next]
    refine hi.apart.release fun u => ?_
    by_cases e : u = t
    · subst e; rw [hand_self pc]; exact less
    · exact .inl (hand_of_ne pc u e)
  · obtain ⟨fit, was⟩ := hi.belongs q n h
    refine ⟨fun timely => belongs_kept pc (by rw [epochs]) (fun mine => ?_) (fit timely), gone ▸ was⟩
    rcases cur with same | ⟨none, none'⟩
    · exact same
    · have chain := hi.apart.chain q
      rw [← heads] at chain
      rcases mine with rfl | rfl <;>
        simp only [State.head, pc, Function.update_self, none, none'] at chain <;>
        rw [chain.eq_nil] at h <;> cases h
  · have held : (s.pc t).hand = some n := by
      rcases less with same | none
      · exact same ▸ h
      · rw [none] at h; cases h
    exact ⟨fun timely => fits n ((hi.fits t n held).1 timely), gone ▸ (hi.fits t n held).2⟩
  · rcases hand with ⟨same, destroyed⟩ | ⟨n, held, none, destroyed⟩
    · refine whole.of_somewhere gone destroyed fun m => ?_
      have hands (u : τ) : s'.hand u = s.hand u := by
        by_cases e : u = t
        · subst e
          exact (hand_self pc).trans same
        · exact hand_of_ne pc u e
      simp only [State.somewhere, hands]
    · exact hi.drop pc gone held none destroyed whole

omit [DecidableEq ν] in
/-- The node in hand becomes the first of a list. -/
theorem push (hi : Placed timely s lists) {c : Ctx ν} {p : Pc τ ν} {n : ν} {q : Place τ}
    (pc : s'.pc = Function.update s.pc t p) (ctx : s'.ctx = Function.update s.ctx t c)
    (next : s'.gcNext = s.gcNext) (epochs : s'.retireEpoch = s.retireEpoch)
    (gone : s'.retiredAt = s.retiredAt) (destroyed : s'.destroyed = s.destroyed)
    (carried : (s.pc t).carries = some n) (hand : p.hand = none)
    (link : s.gcNext n = s.head q) (top : s'.head q = some n)
    (rest : ∀ r, r ≠ q → s'.head r = s.head r) (ne : ∀ u, q ≠ .taken u)
    (cur : (s.pc t).cur = p.cur) (fit : timely → s.fits n (s.pc t) → s.belongs n q)
    (linked : ∀ cells, s'.linked t cells p) :
    ∃ lists', Placed timely s' lists' ∧ Moved s s' t lists lists' := by
  have held : (s.pc t).hand = some n := Pc.hand_of_carries carried
  -- the node goes from the hand to the head of the list
  obtain ⟨lists', apart, first, same⟩ := hi.apart.push s'.head s'.hand
    (t := t) held link top rest (by rw [hand_self pc, hand]) (hand_of_ne pc)
  refine ⟨lists', hi.assemble pc ctx (fun n h => by rw [epochs, gone]; exact ⟨rfl, h⟩)
    (fun n h => absurd (by rw [next]) h) (next ▸ apart) (fun r m h => ?_)
    (fun m h => by rw [hand] at h; cases h) (linked _) (fun u _ => same _ (ne u).symm),
    fun _ whole => ?_, fun r m h => ?_⟩
  · have mine := hi.fits t n held
    have kept {r : Place τ} {m : ν} (was_in : m ∈ lists r) :
        (timely → s'.belongs m r) ∧ s'.retiredAt m ≠ none := by
      obtain ⟨fit, was⟩ := hi.belongs r m was_in
      exact ⟨fun timely => belongs_kept pc (by rw [epochs]) (fun _ => cur) (fit timely), gone ▸ was⟩
    by_cases e : r = q
    · subst e
      rw [first] at h
      rcases List.mem_cons.mp h with rfl | h
      · exact ⟨fun timely => belongs_kept pc (by rw [epochs]) (fun _ => cur)
          (fit timely (mine.1 timely)),
          gone ▸ mine.2⟩
      · exact kept h
    · exact kept (same r e ▸ h)
  · refine whole.of_somewhere gone destroyed fun m => ?_
    simp only [State.somewhere, exists_mem_of_pushed first same, exists_hand_iff (t := t),
      exists_other_hand pc, hand_self pc, hand, show s.hand t = some n from held, reduceCtorEq,
      false_or, Option.some.injEq, eq_comm (a := n)]
    tauto
  · by_cases e : r = q
    · subst e
      rw [first] at h
      rcases List.mem_cons.mp h with rfl | h
      · exact .inr (.inl carried)
      · exact .inl h
    · exact .inl (same r e ▸ h)

omit [DecidableEq ν] in
/-- The first node of a list is taken into the hand. -/
theorem pop (hi : Placed timely s lists) {p : Pc τ ν} {n : ν} {q : Place τ}
    (pc : s'.pc = Function.update s.pc t p) (ctx : s'.ctx = s.ctx)
    (next : s'.gcNext = s.gcNext) (epochs : s'.retireEpoch = s.retireEpoch)
    (gone : s'.retiredAt = s.retiredAt) (destroyed : s'.destroyed = s.destroyed)
    (free : (s.pc t).hand = none) (hand : p.hand = some n)
    (top : s.head q = some n) (tail : s'.head q = s.gcNext n)
    (rest : ∀ r, r ≠ q → s'.head r = s.head r) (own : ∀ u, u ≠ t → q ≠ .taken u)
    (cur : (s.pc t).cur = p.cur) (fit : s.belongs n q → s'.fits n p)
    (linked : ∀ cells, s'.linked t cells p) :
    ∃ lists', Placed timely s' lists' ∧ Moved s s' t lists lists' := by
  obtain ⟨lists', apart, first, same⟩ := hi.apart.pop s'.head s'.hand
    (t := t) top tail rest (by rw [hand_self pc, hand]) (hand_of_ne pc)
  -- no list gets a node more
  have sub (r : Place τ) (m : ν) (h : m ∈ lists' r) : m ∈ lists r := by
    by_cases e : r = q
    · subst e; rw [first]; exact List.mem_cons_of_mem _ h
    · rw [← same r e]; exact h
  refine ⟨lists', hi.assemble (c := s.ctx t) pc (by simpa using ctx)
    (fun n h => by rw [epochs, gone]; exact ⟨rfl, h⟩)
    (fun n h => absurd (by rw [next]) h) (next ▸ apart) (fun r m h => ?_)
    (fun m h => ?_) (linked _) (fun u hu => same _ (own u hu).symm), fun _ whole => ?_,
    fun r m h => .inl (sub r m h)⟩
  · obtain ⟨fit, was⟩ := hi.belongs r m (sub r m h)
    exact ⟨fun timely => belongs_kept pc (by rw [epochs]) (fun _ => cur) (fit timely), gone ▸ was⟩
  · rw [hand] at h
    cases h
    obtain ⟨was_in, was⟩ := hi.belongs q n (by rw [first]; exact List.mem_cons_self)
    exact ⟨fun timely => fit (was_in timely), gone ▸ was⟩
  · refine whole.of_somewhere gone destroyed fun m => ?_
    simp only [State.somewhere, exists_mem_of_pushed first fun r hr => (same r hr).symm,
      exists_hand_iff (t := t), exists_other_hand pc, hand_self pc, hand,
      show s.hand t = none from free, reduceCtorEq, false_or, Option.some.injEq,
      eq_comm (a := n)]
    tauto

/-- The join: the list behind goes to the end of the list taken. -/
theorem join (hi : Placed timely s lists) {cur : Nat} {toFree tail lcl : ν}
    (hp : s.pc t = .gcJoin cur toFree tail lcl) :
    ∃ lists', Placed timely ((s.setNext tail (some lcl)).goto t (.reclaim cur (some toFree)))
      lists' ∧ Moved s ((s.setNext tail (some lcl)).goto t (.reclaim cur (some toFree))) t
        lists lists' := by
  let s' := (s.setNext tail (some lcl)).goto t (.reclaim cur (some toFree))
  have pc : s'.pc = Function.update s.pc t (.reclaim cur (some toFree)) := rfl
  have ctx : s'.ctx = Function.update s.ctx t (s.ctx t) := (Function.update_eq_self t s.ctx).symm
  have link := hi.linked t
  rw [hp] at link
  obtain ⟨mem, ends⟩ := link
  -- the list behind is appended to the list that has been taken
  have rest (r : Place τ) (h : r ≠ .behind t) : s'.head r = s.head r :=
    head_eq pc ctx (fun _ _ => rfl) (fun _ _ => by rw [hp]; rfl) (fun _ => by rw [hp]; rfl)
      (fun e => absurd e h)
  obtain ⟨lists', apart, first, second, same⟩ := hi.apart.join (p := .taken t) (q := .behind t)
    s'.head (by simp) mem ends (rest _ (by simp))
    (by simp only [State.head, pc, Function.update_self]; rfl) (fun r _ h => rest r h)
  have head : s.head (.behind t) = some lcl := by simp only [State.head, hp]; rfl
  rw [head] at apart
  refine ⟨lists', hi.assemble pc ctx (fun n h => ⟨rfl, h⟩) (fun n h => ?_) ?_ (fun q n h => ?_)
    (fun n h => by cases h) trivial (fun u h => same _ (by simpa using h) (by simp)),
    fun _ whole => ?_, fun q n h => ?_⟩
  · by_cases e : n = tail
    · exact .inr (e ▸ mem)
    · exact absurd (Function.update_of_ne e ..) h
  · refine apart.release fun u => ?_
    by_cases e : u = t
    · subst e; exact .inr (hand_self pc)
    · exact .inl (hand_of_ne pc u e)
  · have kept {r : Place τ} (h : n ∈ lists r) :
        (timely → s'.belongs n r) ∧ s'.retiredAt n ≠ none :=
      ⟨fun timely => belongs_kept pc rfl (fun _ => by rw [hp]; rfl) ((hi.belongs r n h).1 timely),
        (hi.belongs r n h).2⟩
    by_cases e : q = .taken t
    · subst e
      rw [first] at h
      rcases List.mem_append.mp h with h | h
      · exact kept h
      · obtain ⟨fit, was⟩ := kept (r := .behind t) h
        exact ⟨fit, was⟩
    · by_cases e' : q = .behind t
      · subst e'; rw [second] at h; cases h
      · rw [same q e e'] at h; exact kept h
  · refine whole.of_somewhere rfl rfl fun n => ?_
    have lists_iff : (∃ q, n ∈ lists' q) ↔ ∃ q, n ∈ lists q :=
      exists_mem_of_moved (p := .behind t) (q := .taken t)
        (fun m => by rw [first, List.mem_append, or_comm]) second
        (fun r hb ht => same r ht hb)
    rw [State.somewhere, State.somewhere, lists_iff, exists_hand_iff (t := t), exists_other_hand pc,
      exists_hand_iff (s := s) (t := t), hand_self pc, State.hand, hp]
    rfl
  · by_cases e : q = .taken t
    · exact .inr (.inr (.inl e))
    · by_cases e' : q = .behind t
      · exact .inr (.inr (.inr e'))
      · exact .inl (same q e e' ▸ h)

/-- What has been retired before epoch `cur + 2` into the slot of epoch `cur - 1` was retired
before epoch `cur`. -/
theorem lt_of_rslot {e cur : Nat} (small : cur < 2 ^ 31) (known : e ≤ cur + 1)
    (slot : e % ebrEpochCount = rslot cur) : e < cur := by
  rw [rslot_eq small] at slot
  unfold ebrEpochCount at slot
  omega

omit [DecidableEq τ] [DecidableEq ν] in
theorem joinLists_facts (cur : Nat) (toFree lcl : Option ν) :
    (joinLists cur toFree lcl : Pc τ ν).cur = cur ∧ (joinLists cur toFree lcl : Pc τ ν).hand = none ∧
      ∀ f, (joinLists cur toFree lcl : Pc τ ν).pending f = f := by
  cases toFree <;> cases lcl <;> exact ⟨rfl, rfl, fun _ => rfl⟩

/-- The heads after the exchange of `try_gc`, before it looks at its own pending list. -/
def exchanged (s : State τ ν) (t : τ) (r : Nat) : Place τ → Option ν
  | .stack e => if e = r then none else s.retired e
  | .taken u => if u = t then s.retired r else s.head (.taken u)
  | q => s.head q

/-- What the winner has written when it has taken its two lists for slot `r`. -/
structure Collected (s s' : State τ ν) (t : τ) (cur r : Nat) : Prop where
  pc : s'.pc = Function.update s.pc t (joinLists cur (s.retired r) ((s.ctx t).pending r))
  ctx : s'.ctx = Function.update s.ctx t ((s.ctx t).setPending r none)
  stacked : s'.retired = Function.update s.retired r none
  gcNext : s'.gcNext = s.gcNext
  retireEpoch : s'.retireEpoch = s.retireEpoch
  retiredAt : s'.retiredAt = s.retiredAt
  destroyed : s'.destroyed = s.destroyed

namespace Collected

variable {cur r : Nat}

omit [DecidableEq ν]

theorem head_slot (h : Collected s s' t cur r) (e : Nat) :
    s'.head (.slot t e) = if e = r then none else (s.ctx t).pending e := by
  simp only [State.head, h.pc, h.ctx, Function.update_self, (joinLists_facts ..).2.2,
    Ctx.setPending, Function.update_apply]

theorem head_taken (h : Collected s s' t cur r) : s'.head (.taken t) =
    (joinLists cur (s.retired r) ((s.ctx t).pending r) : Pc τ ν).taken := by
  simp only [State.head, h.pc, Function.update_self]

theorem head_behind (h : Collected s s' t cur r) : s'.head (.behind t) =
    (joinLists cur (s.retired r) ((s.ctx t).pending r) : Pc τ ν).behind := by
  simp only [State.head, h.pc, Function.update_self]

/-- What is not a list of the winner is as after the exchange. -/
theorem head_of_ne (h : Collected s s' t cur r) {q : Place τ} (slot : ∀ e, q ≠ .slot t e)
    (taken : q ≠ .taken t) (behind : q ≠ .behind t) : s'.head q = exchanged s t r q := by
  cases q with
  | stack e => simp only [State.head, exchanged, h.stacked, Function.update_apply]
  | slot u e =>
    have ne : u ≠ t := by rintro rfl; exact slot e rfl
    simp only [State.head, exchanged, h.pc, h.ctx, Function.update_of_ne ne]
  | taken u =>
    have ne : u ≠ t := by rintro rfl; exact taken rfl
    simp only [State.head, exchanged, h.pc, Function.update_of_ne ne, if_neg ne]
  | behind u =>
    have ne : u ≠ t := by rintro rfl; exact behind rfl
    simp only [State.head, exchanged, h.pc, Function.update_of_ne ne]

theorem rest (h : Collected s s' t cur r) (plain : (s.pc t).plain = true) {q : Place τ}
    (slot : q ≠ .slot t r) (taken : q ≠ .taken t)
    (behind : q = .behind t → s'.head q = exchanged s t r q) : s'.head q = exchanged s t r q := by
  by_cases own : ∃ e, q = .slot t e
  · obtain ⟨e, rfl⟩ := own
    rw [h.head_slot, if_neg (by simpa using slot)]
    exact (Pc.pending_of_plain plain ..).symm
  · by_cases hb : q = .behind t
    · exact behind hb
    · exact h.head_of_ne (fun e he => own ⟨e, he⟩) taken hb

/-- The pending list of the slot goes where `try_gc` joins it: nowhere when it is empty, to the
list taken when that is empty, and else behind it. -/
theorem split (h : Collected s s' t cur r) (plain : (s.pc t).plain = true)
    {lists₁ : Place τ → List ν} (apart₁ : Apart s.gcNext (exchanged s t r) s.hand lists₁) :
    ∃ lists', Apart s.gcNext s'.head s.hand lists' ∧
      (∀ q n, n ∈ lists' q → n ∈ lists₁ q ∨
        (q = .taken t ∨ q = .behind t) ∧ n ∈ lists₁ (.slot t r)) ∧
      (∀ u, u ≠ t → lists' (.taken u) = lists₁ (.taken u)) ∧
      ∀ n, (∃ q, n ∈ lists' q) ↔ ∃ q, n ∈ lists₁ q := by
  obtain ⟨-, behind, -, -⟩ := Pc.empty_of_plain plain
  have before (e : Nat) : exchanged s t r (.slot t e) = (s.ctx t).pending e :=
    Pc.pending_of_plain plain ..
  have was_behind : exchanged s t r (.behind t) = none := behind
  -- the list of the slot goes behind the one taken from the stack, or is taken itself
  cases hl : (s.ctx t).pending r with
  | none =>
    have heads : s'.head = exchanged s t r := by
      funext q
      by_cases own : ∃ e, q = .slot t e
      · obtain ⟨e, rfl⟩ := own
        rw [h.head_slot, before e]
        split
        · next e' => rw [e', hl]
        · rfl
      · by_cases ht : q = .taken t
        · subst ht
          rw [h.head_taken, exchanged, if_pos rfl, hl]
          cases s.retired r <;> rfl
        · by_cases hb : q = .behind t
          · subst hb
            rw [h.head_behind, was_behind, hl]
            cases s.retired r <;> rfl
          · exact h.head_of_ne (fun e he => own ⟨e, he⟩) ht hb
    exact ⟨lists₁, heads ▸ apart₁, fun q n h => .inl h, fun _ _ => rfl, fun _ => Iff.rfl⟩
  | some lcl =>
    cases hf : s.retired r with
    | none =>
      obtain ⟨lists', apart, into, left, same⟩ := apart₁.move (p := .slot t r) (q := .taken t)
        s'.head (by simp) ((if_pos rfl).trans hf)
        (by rw [h.head_taken, hf, hl, before r, hl]; rfl)
        ((h.head_slot r).trans (if_pos rfl)) (fun q hq hq' => h.rest plain hq hq' fun e => by
          subst e; rw [h.head_behind, hf, hl]; exact behind.symm)
      have empty : lists₁ (.taken t) = [] := by
        have chain := apart₁.chain (.taken t)
        rw [exchanged, if_pos rfl, hf] at chain
        exact chain.eq_nil
      refine ⟨lists', apart, fun q n h => ?_, fun u hu => same _ (by simp) (by simpa using hu),
        fun n => exists_mem_of_moved (fun m => by rw [into, empty]; simp) left same⟩
      by_cases e : q = .taken t
      · subst e; exact .inr ⟨.inl rfl, into ▸ h⟩
      · by_cases e' : q = .slot t r
        · subst e'; rw [left] at h; cases h
        · exact .inl (same q e' e ▸ h)
    | some toFree =>
      obtain ⟨lists', apart, into, left, same⟩ := apart₁.move (p := .slot t r) (q := .behind t)
        s'.head (by simp) behind
        (by rw [h.head_behind, hf, hl, before r, hl]; rfl)
        ((h.head_slot r).trans (if_pos rfl)) (fun q hq hq' => by
          by_cases e : q = .taken t
          · subst e; rw [h.head_taken, hf, hl, exchanged, if_pos rfl, hf]; rfl
          · exact h.rest plain hq e fun e => absurd e hq')
      have empty : lists₁ (.behind t) = [] := by
        have chain := apart₁.chain (.behind t)
        rw [was_behind] at chain
        exact chain.eq_nil
      refine ⟨lists', apart, fun q n h => ?_, fun u hu => same _ (by simp) (by simp),
        fun n => exists_mem_of_moved (fun m => by rw [into, empty]; simp) left same⟩
      by_cases e : q = .behind t
      · subst e; exact .inr ⟨.inr rfl, into ▸ h⟩
      · by_cases e' : q = .slot t r
        · subst e'; rw [left] at h; cases h
        · exact .inl (same q e' e ▸ h)

/-- The stack of the slot becomes the list taken, and the pending list follows it. What is in the
lists of the winner afterwards was retired into the slot. -/
theorem parts (h : Collected s s' t cur r) (hi : Placed timely s lists)
    (plain : (s.pc t).plain = true) :
    ∃ lists', Apart s.gcNext s'.head s.hand lists' ∧
      (∀ q n, n ∈ lists' q → n ∈ lists q ∨
        (q = .taken t ∨ q = .behind t) ∧ (n ∈ lists (.stack r) ∨ n ∈ lists (.slot t r))) ∧
      (∀ u, u ≠ t → lists' (.taken u) = lists (.taken u)) ∧
      ∀ n, (∃ q, n ∈ lists' q) ↔ ∃ q, n ∈ lists q := by
  obtain ⟨taken, -⟩ := Pc.empty_of_plain plain
  -- first the stack is taken, then the list of the slot
  obtain ⟨lists₁, apart₁, to₁, from₁, same₁⟩ := hi.apart.move (p := .stack r) (q := .taken t)
    (exchanged s t r) (by simp) taken (if_pos rfl) (if_pos rfl) (fun q h h' => by
      cases q with
      | stack e => exact if_neg (by simpa using h)
      | taken u => exact if_neg (by simpa using h')
      | _ => rfl)
  obtain ⟨lists', apart, mem, same, all⟩ := h.split plain apart₁
  refine ⟨lists', apart, fun q n hn => ?_,
    fun u hu => (same u hu).trans (same₁ _ (by simp) (by simpa using hu)), fun n => ?_⟩
  · rcases mem q n hn with hn | ⟨here, hn⟩
    · by_cases e : q = .taken t
      · subst e; exact .inr ⟨.inl rfl, .inl (to₁ ▸ hn)⟩
      · by_cases e' : q = .stack r
        · subst e'; rw [from₁] at hn; cases hn
        · exact .inl (same₁ q e' e ▸ hn)
    · rw [same₁ _ (by simp) (by simp)] at hn
      exact .inr ⟨here, .inr hn⟩
  · have empty : lists (.taken t) = [] := by
      have chain := hi.apart.chain (.taken t)
      rw [show s.head (.taken t) = none from taken] at chain
      exact chain.eq_nil
    exact (all n).trans (exists_mem_of_moved (fun m => by rw [to₁, empty]; simp) from₁ same₁)

end Collected

omit [DecidableEq ν] in
/-- The winner's two lists for the slot become the lists that it joins. -/
theorem collect (hi : Placed timely s lists) (sections : timely → Sections s) {cur : Nat}
    (hp : s.pc t = .gcPop cur) (prompt : timely → s.epoch = cur + 1)
    (h : Collected s s' t cur (rslot cur)) :
    ∃ lists', Placed timely s' lists' ∧ Moved s s' t lists lists' := by
  have plain : (s.pc t).plain = true := by rw [hp]; rfl
  obtain ⟨taken, behind, hand, -⟩ := Pc.empty_of_plain plain
  obtain ⟨cur', hand', -⟩ := joinLists_facts (τ := τ) cur (s.retired (rslot cur))
    ((s.ctx t).pending (rslot cur))
  obtain ⟨lists', apart, source, same, all⟩ := h.parts hi plain
  refine ⟨lists', hi.assemble h.pc h.ctx
    (fun n hn => by rw [h.retireEpoch, h.retiredAt]; exact ⟨rfl, hn⟩)
    (fun n hn => absurd (by rw [h.gcNext]) hn) ?_ (fun q n hn => ?_) (fun n hn => ?_) ?_ same,
    fun _ whole => ?_, fun q n hn => ?_⟩
  · rw [h.gcNext]
    refine apart.release fun u => ?_
    by_cases e : u = t
    · subst e; exact .inr ((hand_self h.pc).trans hand')
    · exact .inl (hand_of_ne h.pc u e)
  · rcases source q n hn with hn | ⟨here, hn⟩
    · obtain ⟨fit, was⟩ := hi.belongs q n hn
      refine ⟨fun timely => belongs_kept h.pc (by rw [h.retireEpoch]) (fun mine => ?_) (fit timely),
        h.retiredAt ▸ was⟩
      -- both lists were empty before
      have chain := hi.apart.chain q
      rcases mine with rfl | rfl
      · rw [show s.head (.taken t) = none from taken] at chain
        rw [chain.eq_nil] at hn
        cases hn
      · rw [show s.head (.behind t) = none from behind] at chain
        rw [chain.eq_nil] at hn
        cases hn
    · obtain ⟨slot, was⟩ : (timely → s.retireEpoch n % ebrEpochCount = rslot cur) ∧
          s.retiredAt n ≠ none := by
        rcases hn with hn | hn <;> exact hi.belongs _ n hn
      refine ⟨fun timely => ?_, h.retiredAt ▸ was⟩
      obtain ⟨at_, hat⟩ := Option.ne_none_iff_exists'.mp was
      have ⟨bounded, known⟩ := (⟨(sections timely).bounded, ((sections timely).past n at_ hat).2⟩ :
        s.epoch < 2 ^ 31 ∧ s.retireEpoch n ≤ s.epoch)
      rw [prompt timely] at bounded known
      have early := lt_of_rslot (by omega) known (slot timely)
      rcases here with rfl | rfl <;>
        simpa only [State.belongs, h.pc, Function.update_self, cur', h.retireEpoch] using early
  · rw [hand'] at hn; cases hn
  · -- the walk starts at the head of the list taken
    have chain := apart.chain (.taken t)
    rw [h.head_taken] at chain
    cases hf : s.retired (rslot cur) <;> cases hl : (s.ctx t).pending (rslot cur) <;> try trivial
    rw [hf, hl] at chain
    obtain ⟨_, eq, -⟩ := chain.uncons
    rw [eq]
    exact List.mem_cons_self
  · refine whole.of_somewhere h.retiredAt h.destroyed fun n => ?_
    rw [State.somewhere, State.somewhere, all n, exists_hand_iff (t := t), exists_other_hand h.pc,
      exists_hand_iff (s := s) (t := t), hand_self h.pc, hand', show s.hand t = none from hand]
  · rcases source q n hn with hn | ⟨here, -⟩
    · exact .inl hn
    · exact .inr (.inr here)

/-- The two stores of `ebr_retire`: the link of the node, and the head of the pending list. -/
theorem resume_retire (hi : Placed timely s lists) (sections : timely → Sections s)
    {threshold env : Nat} {ptr : ν} {cur : Nat}
    (hp : s.pc t = .retireLink ptr cur ∨ s.pc t = .retirePush ptr cur)
    (inRange : s.pc t = .retireLink ptr cur → 0 ≤ retireSlot cur)
    (h : Epoch.resume threshold s t env = some s') :
    ∃ lists', Placed timely s' lists' ∧ Moved s s' t lists lists' := by
  unfold Epoch.resume at h
  rcases hp with hp | hp
  · simp only [hp] at h
    rw [if_neg (Int.not_lt.mpr (inRange hp))] at h
    cases h
    refine ⟨lists, hi.store rfl rfl rfl rfl rfl rfl rfl (by rw [hp]; rfl) rfl
      (fun _ => by rw [hp]; rfl) (by rw [hp]; rfl) (by rw [hp]; rfl) (by rw [hp]; rfl)
      (fun fit => by rw [hp] at fit; exact fit) ?_⟩
    simp [State.linked, State.goto, State.setNext]
  · simp only [hp] at h
    cases h
    have link := hi.linked t
    rw [hp] at link
    refine hi.push (n := ptr) (q := .slot t (retireSlot cur).toNat) rfl rfl rfl rfl rfl rfl
      (by rw [hp]; rfl) rfl (by rw [State.head, hp]; exact link) ?_ (fun q hq => ?_) (by simp)
      (by rw [hp]; rfl) (fun timely fit => ?_) (fun _ => trivial)
    · simp [State.head, State.goto, State.setCtx, Ctx.setPending, Pc.pending]
    · refine head_eq rfl rfl (fun _ _ => rfl) (fun e he => ?_) (fun _ => by rw [hp]; rfl)
        (fun _ => by rw [hp]; rfl)
      subst he
      have ne : e ≠ (retireSlot cur).toNat := by simpa using hq
      rw [hp]
      exact Function.update_of_ne ne ..
    · -- the epoch of the node is not negative
      rw [hp] at fit
      have fit : s.retireEpoch ptr = cur := fit
      have was := (hi.fits t ptr (by rw [State.hand, hp]; rfl)).2
      obtain ⟨r, hr⟩ := Option.ne_none_iff_exists'.mp was
      have known := ((sections timely).past ptr r hr).2
      have bounded := (sections timely).bounded
      rw [State.belongs, retireSlot_eq (by omega), fit]
      rfl

/-- The walk to the last node of the list taken moves nothing. -/
theorem resume_tail (hi : Placed timely s lists) {threshold env cur : Nat} {toFree tail lcl : ν}
    (hp : s.pc t = .gcTail cur toFree tail lcl) (h : Epoch.resume threshold s t env = some s') :
    Placed timely s' lists ∧ Moved s s' t lists lists := by
  unfold Epoch.resume at h
  simp only [hp] at h
  have self : s.ctx = Function.update s.ctx t (s.ctx t) := (Function.update_eq_self t s.ctx).symm
  have link := hi.linked t
  rw [hp] at link
  split at h
  · next succ =>
    cases h
    exact hi.keep rfl self rfl rfl rfl rfl (.inl ⟨by rw [hp]; rfl, rfl⟩)
      (fun _ => by rw [hp]; rfl) (by rw [hp]; rfl) (by rw [hp]; rfl) (.inl (by rw [hp]; rfl))
      (fun _ _ => trivial) ((hi.apart.chain _).next_mem link succ)
  · next ends =>
    cases h
    exact hi.keep rfl self rfl rfl rfl rfl (.inl ⟨by rw [hp]; rfl, rfl⟩)
      (fun _ => by rw [hp]; rfl) (by rw [hp]; rfl) (by rw [hp]; rfl) (.inl (by rw [hp]; rfl))
      (fun _ _ => trivial) ⟨link, ends⟩

/-- The loop of `ebr_reclaim`: the first node is taken, or the list is at its end. -/
theorem resume_reclaim (hi : Placed timely s lists) {threshold env cur : Nat} {list : Option ν}
    (hp : s.pc t = .reclaim cur list) (h : Epoch.resume threshold s t env = some s') :
    ∃ lists', Placed timely s' lists' ∧ Moved s s' t lists lists' := by
  unfold Epoch.resume at h
  simp only [hp] at h
  have self : s.ctx = Function.update s.ctx t (s.ctx t) := (Function.update_eq_self t s.ctx).symm
  cases list with
  | none =>
    cases h
    exact ⟨lists, hi.keep rfl self rfl rfl rfl rfl (.inl ⟨by rw [hp]; rfl, rfl⟩)
      (fun _ => by rw [hp]; rfl) (by rw [hp]; rfl) (by rw [hp]; rfl) (.inr ⟨rfl, rfl⟩)
      (fun _ _ => trivial) trivial⟩
  | some list =>
    cases h
    refine hi.pop (n := list) (q := .taken t) rfl rfl rfl rfl rfl rfl (by rw [hp]; rfl) rfl
      (by rw [State.head, hp]; rfl) (by simp [State.head, State.goto, Pc.taken])
      (fun q hq => head_eq rfl (by exact self) (fun _ _ => rfl) (fun _ _ => by rw [hp]; rfl)
        (fun e => absurd e hq) (fun _ => by rw [hp]; rfl)) (fun u hu e => by cases e; exact hu rfl)
      (by rw [hp]; rfl) (fun fit => ?_) (fun _ => trivial)
    rw [State.belongs, hp] at fit
    exact fit

/-- A thread that exits takes the nodes of its pending lists, one after the other. -/
theorem resume_drain (hi : Placed timely s lists) {threshold env e : Nat} {node : Option ν}
    (hp : s.pc t = .drain e node) (h : Epoch.resume threshold s t env = some s') :
    ∃ lists', Placed timely s' lists' ∧ Moved s s' t lists lists' := by
  unfold Epoch.resume at h
  simp only [hp] at h
  have self : s.ctx = Function.update s.ctx t (s.ctx t) := (Function.update_eq_self t s.ctx).symm
  cases node with
  | none =>
    -- the list of `e` is empty, so what is pending is what the thread drains next
    have drained (p : Pc τ ν) (e' : Nat) (hp' : p.pending
        ((s.ctx t).setPending e none).pending e' = ((s.ctx t).setPending e none).pending e') :
        p.pending ((s.ctx t).setPending e none).pending e' =
          (s.pc t).pending (s.ctx t).pending e' := by
      rw [hp', hp]
      exact Function.update_apply ..
    simp only [State.drained] at h
    split at h
    · cases h
      refine ⟨lists, hi.keep rfl rfl rfl rfl rfl rfl (.inl ⟨by rw [hp]; rfl, rfl⟩)
        (fun e' => drained _ e' ?_) (by rw [hp]; rfl) (by rw [hp]; rfl) (.inl (by rw [hp]; rfl))
        (fun _ _ => trivial) trivial⟩
      simp only [Pc.pending]
      split
      · next same => rw [same]
      · rfl
    · cases h
      exact ⟨lists, hi.keep rfl rfl rfl rfl rfl rfl (.inl ⟨by rw [hp]; rfl, rfl⟩)
        (fun e' => drained _ e' rfl) (by rw [hp]; rfl) (by rw [hp]; rfl) (.inl (by rw [hp]; rfl))
        (fun _ _ => trivial) trivial⟩
  | some node =>
    cases h
    refine hi.pop (n := node) (q := .slot t e) rfl rfl rfl rfl rfl rfl (by rw [hp]; rfl) rfl
      (by simp [State.head, hp, Pc.pending]) (by simp [State.head, State.goto, Pc.pending])
      (fun q hq => head_eq rfl (by exact self) (fun _ _ => rfl) (fun e' he => ?_)
        (fun _ => by rw [hp]; rfl) (fun _ => by rw [hp]; rfl)) (by simp)
      (by rw [hp]; rfl) (fun fit => fit) (fun _ => trivial)
    subst he
    have ne : e' ≠ e := by simpa using hq
    rw [hp]
    simp only [Pc.pending, if_neg ne]

/-- The exchange that puts a drained node on the stack of its epoch; a failed one keeps the node
in hand. -/
theorem resume_stackCas (hi : Placed timely s lists) {threshold env e : Nat} {node : ν}
    {next old : Option ν} (hp : s.pc t = .stackCas e node next old)
    (h : Epoch.resume threshold s t env = some s') :
    ∃ lists', Placed timely s' lists' ∧ Moved s s' t lists lists' := by
  unfold Epoch.resume at h
  simp only [hp] at h
  have self : s.ctx = Function.update s.ctx t (s.ctx t) := (Function.update_eq_self t s.ctx).symm
  have link := hi.linked t
  rw [hp] at link
  split at h
  · next hit =>
    cases h
    refine hi.push (n := node) (q := .stack e) rfl self rfl rfl rfl rfl (by rw [hp]; rfl) rfl
      (link.trans hit.1.symm) (Function.update_self ..) (fun q hq => ?_) (by simp)
      (by rw [hp]; rfl) (fun _ fit => by rw [hp] at fit; exact fit) (fun _ => trivial)
    refine head_eq rfl (by exact self) (fun e' he => ?_)
      (fun _ _ => by rw [hp]; rfl) (fun _ => by rw [hp]; rfl) (fun _ => by rw [hp]; rfl)
    subst he
    have ne : e' ≠ e := by simpa using hq
    exact Function.update_of_ne ne ..
  · cases h
    exact ⟨lists, hi.keep rfl self rfl rfl rfl rfl (.inl ⟨by rw [hp]; rfl, rfl⟩)
      (fun _ => by rw [hp]; rfl) (by rw [hp]; rfl) (by rw [hp]; rfl) (.inl (by rw [hp]; rfl))
      (fun n fit => by rw [hp] at fit; exact fit) trivial⟩

theorem resume (hi : Placed timely s lists) (sections : timely → Sections s)
    {threshold env : Nat} (prompt : timely → ∀ cur, s.pc t = .gcPop cur → s.epoch = cur + 1)
    (inRange : ∀ ptr cur, s.pc t = .retireLink ptr cur → 0 ≤ retireSlot cur)
    (h : Epoch.resume threshold s t env = some s') :
    ∃ lists', Placed timely s' lists' ∧ Moved s s' t lists lists' := by
  have self : s.ctx = Function.update s.ctx t (s.ctx t) := (Function.update_eq_self t s.ctx).symm
  cases hp : s.pc t with
  | fresh | ready | dead => simp [Epoch.resume, hp] at h
  | popNext _ | popIndex _ | popHead | popCas _ _ | pushLink _ | pushHead | gcEpoch |
      pushIndex | gcCount _ | gcScan _ _ _ | gcCritical _ _ _ _ | gcLocal _ _ _ _ | gcCas _ |
      refresh =>
    -- between these places the thread reads, or writes to the free list of slots
    simp only [Epoch.resume, hp] at h
    repeat' split at h
    all_goals cases h
    all_goals exact hi.plain rfl self rfl rfl rfl rfl rfl (by rw [hp]; rfl) rfl (fun _ => .inl rfl)
  | publish _ | enter =>
    simp only [Epoch.resume, hp] at h
    cases h
    exact hi.plain rfl rfl rfl rfl rfl rfl rfl (by rw [hp]; rfl) rfl (fun _ => .inl rfl)
  | refreshStore _ =>
    simp only [Epoch.resume, hp] at h
    split at h <;> cases h <;>
      exact hi.plain rfl rfl rfl rfl rfl rfl rfl (by rw [hp]; rfl) rfl (fun _ => .inl rfl)
  | fetchAdd =>
    simp only [Epoch.resume, hp] at h
    split at h <;> cases h
    · exact hi.plain rfl self rfl rfl rfl rfl rfl (by rw [hp]; rfl) rfl (fun _ => .inl rfl)
    · exact ⟨lists, ⟨hi.apart, hi.belongs, hi.fits, hi.linked⟩,
        fun _ whole => ⟨whole.here, whole.retired⟩, fun _ _ => .inl⟩
  | retireLink ptr cur => exact hi.resume_retire sections (.inl hp) (inRange ptr cur) h
  | retirePush ptr cur => exact hi.resume_retire sections (.inr hp) (inRange ptr cur) h
  | gcPop cur =>
    simp only [Epoch.resume, hp] at h
    cases h
    exact hi.collect sections hp (fun timely => prompt timely cur hp)
      ⟨rfl, rfl, rfl, rfl, rfl, rfl, rfl⟩
  | gcTail cur toFree tail lcl => exact ⟨lists, hi.resume_tail hp h⟩
  | gcJoin cur toFree tail lcl =>
    simp only [Epoch.resume, hp] at h
    cases h
    exact hi.join hp
  | reclaim cur list => exact hi.resume_reclaim hp h
  | destroy cur list next =>
    simp only [Epoch.resume, hp] at h
    cases h
    exact ⟨lists, hi.keep rfl self rfl rfl rfl rfl (.inr ⟨list, by rw [hp]; rfl, rfl, rfl⟩)
      (fun _ => by rw [hp]; rfl) (by rw [hp]; rfl) (by rw [hp]; rfl) (.inl (by rw [hp]; rfl))
      (fun _ _ => trivial) trivial⟩
  | pushCas old =>
    simp only [Epoch.resume, hp] at h
    split at h
    · -- the slot is free again, and the thread begins to drain its first list
      cases h
      refine ⟨lists, hi.keep rfl self rfl rfl rfl rfl (.inl ⟨by rw [hp]; rfl, rfl⟩) (fun e => ?_)
        (by rw [hp]; rfl) (by rw [hp]; rfl) (.inl (by rw [hp]; rfl)) (fun _ _ => trivial) trivial⟩
      rw [hp]
      simp only [Pc.pending]
      split
      · next e => rw [e]
      · rfl
    · cases h
      exact hi.plain rfl self rfl rfl rfl rfl rfl (by rw [hp]; rfl) rfl (fun _ => .inl rfl)
  | drain e node => exact hi.resume_drain hp h
  | stackHead e node next =>
    simp only [Epoch.resume, hp] at h
    cases h
    exact ⟨lists, hi.keep rfl self rfl rfl rfl rfl (.inl ⟨by rw [hp]; rfl, rfl⟩)
      (fun _ => by rw [hp]; rfl) (by rw [hp]; rfl) (by rw [hp]; rfl) (.inl (by rw [hp]; rfl))
      (fun n fit => by rw [hp] at fit; exact fit) trivial⟩
  | stackLink e node next old =>
    simp only [Epoch.resume, hp] at h
    cases h
    refine ⟨lists, hi.store rfl rfl rfl rfl rfl rfl rfl (by rw [hp]; rfl) rfl
      (fun _ => by rw [hp]; rfl) (by rw [hp]; rfl) (by rw [hp]; rfl) (by rw [hp]; rfl)
      (fun fit => by rw [hp] at fit; exact fit) ?_⟩
    simp [State.linked, State.goto, State.setNext]
  | stackCas e node next old => exact hi.resume_stackCas hp h

theorem act (hi : Placed timely s lists) (sections : timely → Sections s) {threshold : Nat}
    {a : Label τ ν}
    (prompt : timely → ∀ t env cur, a = .next t env → s.pc t = .gcPop cur → s.epoch = cur + 1)
    (inRange : ∀ t ptr cur, s.pc t = .retireLink ptr cur → 0 ≤ retireSlot cur)
    (h : Epoch.act threshold s a = some s') :
    ∃ lists', Placed timely s' lists' ∧ Moved s s' a.thread lists lists' := by
  have self (t : τ) : s.ctx = Function.update s.ctx t (s.ctx t) :=
    (Function.update_eq_self t s.ctx).symm
  cases a with
  | register t =>
    dsimp only [Label.thread]
    simp only [Epoch.act] at h
    split at h <;> cases h
    next hp =>
      exact hi.plain rfl rfl rfl rfl rfl rfl rfl (by rw [hp]; rfl) rfl (fun _ => .inr ⟨hp, rfl⟩)
  | epochEnter t =>
    dsimp only [Label.thread]
    simp only [Epoch.act] at h
    split at h <;> cases h
    next hp _ =>
      exact hi.plain (p := .ready) (by rw [← hp, Function.update_eq_self]; rfl) rfl rfl rfl
        rfl rfl rfl (by rw [hp]; rfl) rfl (fun _ => .inl rfl)
  | epochExit t =>
    dsimp only [Label.thread]
    simp only [Epoch.act] at h
    split at h <;> cases h
    next hp _ =>
      exact hi.plain rfl rfl rfl rfl rfl rfl rfl (by rw [hp]; rfl) (by split <;> rfl)
        (fun _ => .inl rfl)
  | ebrRetire t ptr =>
    dsimp only [Label.thread]
    simp only [Epoch.act] at h
    split at h <;> cases h
    next hp new => exact ⟨lists, hi.retire hp new⟩
  | exit t =>
    dsimp only [Label.thread]
    simp only [Epoch.act] at h
    split at h <;> cases h
    next hp _ =>
      exact hi.plain rfl (self t) rfl rfl rfl rfl rfl (by rw [hp]; rfl) rfl
        (fun _ => .inl rfl)
  | next t env =>
    exact hi.resume sections (fun timely cur => prompt timely t env cur rfl) (inRange t) h

omit [DecidableEq τ] [DecidableEq ν] in
theorem init (next : ν → Option ν) :
    Placed timely ({ initial with gcNext := next } : State τ ν) (fun _ => []) ∧
      Whole ({ initial with gcNext := next } : State τ ν) (fun _ => []) where
  left := {
    apart := {
      chain := fun p => by cases p <;> rfl
      nodup := fun _ => List.nodup_nil
      disjoint := fun _ _ _ h => by cases h
      outside := fun _ _ _ _ h => by cases h
      single := fun _ _ _ h => by cases h }
    belongs := fun _ _ h => by cases h
    fits := fun _ _ h => by cases h
    linked := fun _ => trivial }
  right := {
    here := fun n => by simp [State.somewhere, State.hand, initial, Pc.hand]
    retired := fun _ h => by cases h }

end Placed

namespace Lists

variable {s s' : State τ ν} {lists : Place τ → List ν}

theorem act [DecidableEq τ] [DecidableEq ν] (hi : Lists s lists) (sections : Sections s)
    {threshold : Nat} {a : Label τ ν}
    (timely : ∀ t env cur, a = .next t env → s.pc t = .gcPop cur → s.epoch = cur + 1)
    (h : Epoch.act threshold s a = some s') : ∃ lists', Lists s' lists' := by
  -- the epochs of the retired nodes are not negative
  have inRange (t : τ) (ptr : ν) (cur : Nat) (hp : s.pc t = .retireLink ptr cur) :
      0 ≤ retireSlot cur := by
    obtain ⟨fit, was⟩ := hi.fits t ptr (by rw [State.hand, hp]; rfl)
    obtain ⟨r, hr⟩ := Option.ne_none_iff_exists'.mp was
    have known := (sections.past ptr r hr).2
    have bounded := sections.bounded
    rw [hp] at fit
    have fit : s.retireEpoch ptr = cur := fit
    rw [retireSlot_eq (by omega)]
    exact Int.natCast_nonneg _
  obtain ⟨lists', h', -⟩ :=
    (placed_iff.mpr hi).act (fun _ => sections) (fun _ => timely) inRange h
  exact ⟨lists', placed_iff.mp h'⟩

theorem init (next : ν → Option ν) :
    Lists ({ initial with gcNext := next } : State τ ν) (fun _ => []) :=
  placed_iff.mp (Placed.init next).1

end Lists

end DBx1000.Epoch
