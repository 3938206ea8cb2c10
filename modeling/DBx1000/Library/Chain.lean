import Mathlib.Data.List.Nodup
import Mathlib.Logic.Function.Basic

/-!
# Singly linked lists

Cells are linked by a successor function; a null-terminated list is given by its head.
`Chain next head cells` says that following `next` from `head` visits exactly `cells`
and then ends. `Apart` says that a family of lists shares no cell and that the cells
which someone holds are in none of them; its rules say how cells and lists change hands.
-/

namespace LinkedList

variable {α : Type*}

def Chain (next : α → Option α) : Option α → List α → Prop
  | head, [] => head = none
  | head, a :: cells => head = some a ∧ Chain next (next a) cells

variable {next next' : α → Option α} {head : Option α} {cells : List α}

@[simp] theorem chain_nil : Chain next head [] ↔ head = none := Iff.rfl

@[simp] theorem chain_cons {a : α} :
    Chain next head (a :: cells) ↔ head = some a ∧ Chain next (next a) cells := Iff.rfl

theorem Chain.eq_nil (h : Chain next none cells) : cells = [] := by
  cases cells with
  | nil => rfl
  | cons a cells => cases h.1

/-- A list with a head consists of the head and the list that its successor heads. -/
theorem Chain.uncons {a : α} (h : Chain next (some a) cells) :
    ∃ rest, cells = a :: rest ∧ Chain next (next a) rest := by
  cases cells with
  | nil => cases h
  | cons b rest =>
    obtain ⟨e, hrest⟩ := h
    cases e
    exact ⟨rest, rfl, hrest⟩

/-- Only the successors of the cells in the list matter. -/
theorem Chain.congr (h : Chain next head cells) (same : ∀ a ∈ cells, next' a = next a) :
    Chain next' head cells := by
  induction cells generalizing head with
  | nil => exact h
  | cons a rest ih =>
    refine ⟨h.1, ?_⟩
    rw [same a List.mem_cons_self]
    exact ih h.2 fun b hb => same b (List.mem_cons_of_mem _ hb)

/-- A cell without a successor is the last one. -/
theorem Chain.last {a : α} (h : Chain next head cells) (mem : a ∈ cells) (ends : next a = none) :
    ∃ front, cells = front ++ [a] := by
  induction cells generalizing head with
  | nil => cases mem
  | cons b rest ih =>
    by_cases e : a = b
    · subst e
      have rest_nil := h.2
      rw [ends] at rest_nil
      exact ⟨[], by rw [rest_nil.eq_nil]; rfl⟩
    · obtain ⟨front, rfl⟩ := ih h.2 ((List.mem_cons.mp mem).resolve_left e)
      exact ⟨b :: front, rfl⟩

/-- The successor of a cell is in the list as well. -/
theorem Chain.next_mem {a b : α} (h : Chain next head cells) (mem : a ∈ cells)
    (succ : next a = some b) : b ∈ cells := by
  induction cells generalizing head with
  | nil => cases mem
  | cons c rest ih =>
    by_cases e : a = c
    · subst e
      have rest_cons := h.2
      rw [succ] at rest_cons
      obtain ⟨tail, rfl, -⟩ := rest_cons.uncons
      simp
    · exact List.mem_cons_of_mem _ (ih h.2 ((List.mem_cons.mp mem).resolve_left e))

variable [DecidableEq α]

theorem Chain.update {a : α} {b : Option α} (h : Chain next head cells) (outside : a ∉ cells) :
    Chain (Function.update next a b) head cells := by
  refine h.congr fun c hc => ?_
  rw [Function.update_of_ne]
  rintro rfl
  exact outside hc

/-- Storing the head of one list behind the last cell of another joins them. -/
theorem Chain.join {a : α} {tail : Option α} {front back : List α}
    (h : Chain next head (front ++ [a])) (hback : Chain next tail back)
    (fresh : a ∉ front) (apart : a ∉ back) :
    Chain (Function.update next a tail) head (front ++ a :: back) := by
  induction front generalizing head with
  | nil =>
    refine ⟨h.1, ?_⟩
    rw [Function.update_self]
    exact hback.update apart
  | cons b front ih =>
    obtain ⟨first, rest⟩ := h
    refine ⟨first, ?_⟩
    rw [Function.update_of_ne (by rintro rfl; exact fresh List.mem_cons_self)]
    exact ih rest fun hb => fresh (List.mem_cons_of_mem _ hb)

end LinkedList

namespace LinkedList

/-! ### Families of lists -/

variable {α P T : Type*} {next : α → Option α} {heads heads' : P → Option α} {hand hand' : T → Option α}
  {lists : P → List α}

/-- One cell more at the front of one list. -/
theorem exists_mem_of_pushed {lists' : P → List α} {p : P} {a b : α}
    (first : lists' p = a :: lists p) (same : ∀ r, r ≠ p → lists' r = lists r) :
    (∃ r, b ∈ lists' r) ↔ b = a ∨ ∃ r, b ∈ lists r := by
  constructor
  · rintro ⟨r, hr⟩
    by_cases hp : r = p
    · rw [hp, first] at hr
      rcases List.mem_cons.mp hr with h | h
      · exact .inl h
      · exact .inr ⟨p, h⟩
    · exact .inr ⟨r, same r hp ▸ hr⟩
  · rintro (rfl | ⟨r, hr⟩)
    · exact ⟨p, first ▸ List.mem_cons_self⟩
    · by_cases hp : r = p
      · exact ⟨p, first ▸ List.mem_cons_of_mem _ (hp ▸ hr)⟩
      · exact ⟨r, (same r hp).symm ▸ hr⟩

/-- What is in some list stays in some list when one list is emptied into another. -/
theorem exists_mem_of_moved {lists' : P → List α} {p q : P} {a : α}
    (into : ∀ b, b ∈ lists' q ↔ b ∈ lists p ∨ b ∈ lists q) (left : lists' p = [])
    (same : ∀ r, r ≠ p → r ≠ q → lists' r = lists r) :
    (∃ r, a ∈ lists' r) ↔ ∃ r, a ∈ lists r := by
  constructor
  · rintro ⟨r, hr⟩
    by_cases hq : r = q
    · subst hq
      rcases (into a).mp hr with h | h
      · exact ⟨p, h⟩
      · exact ⟨r, h⟩
    · by_cases hp : r = p
      · rw [hp, left] at hr
        cases hr
      · exact ⟨r, same r hp hq ▸ hr⟩
  · rintro ⟨r, hr⟩
    by_cases hq : r = q
    · exact ⟨q, (into a).mpr (.inr (hq ▸ hr))⟩
    · by_cases hp : r = p
      · exact ⟨q, (into a).mpr (.inl (hp ▸ hr))⟩
      · exact ⟨r, (same r hp hq).symm ▸ hr⟩

/-- Lists without common cells, and cells held outside all of them. -/
structure Apart (next : α → Option α) (heads : P → Option α) (hand : T → Option α)
    (lists : P → List α) : Prop where
  chain : ∀ p, Chain next (heads p) (lists p)
  nodup : ∀ p, (lists p).Nodup
  disjoint : ∀ p q a, a ∈ lists p → a ∈ lists q → p = q
  outside : ∀ t p a, hand t = some a → a ∉ lists p
  single : ∀ t u a, hand t = some a → hand u = some a → t = u

namespace Apart

variable (h : Apart next heads hand lists) {t : T} {p : P} {a : α}

include h

/-- A cell from nowhere. -/
theorem take (new : ∀ p, a ∉ lists p) (new' : ∀ u, hand u ≠ some a) (mine : hand' t = some a)
    (others : ∀ u, u ≠ t → hand' u = hand u) : Apart next heads hand' lists where
  chain := h.chain
  nodup := h.nodup
  disjoint := h.disjoint
  outside u p b hb := by
    by_cases e : u = t
    · subst e
      rw [mine] at hb
      cases hb
      exact new p
    · exact h.outside u p b (others u e ▸ hb)
  single u v b hu hv := by
    by_cases eu : u = t <;> by_cases ev : v = t
    · rw [eu, ev]
    · rw [eu, mine] at hu
      cases hu
      exact absurd (others v ev ▸ hv) (new' v)
    · rw [ev, mine] at hv
      cases hv
      exact absurd (others u eu ▸ hu) (new' u)
    · exact h.single u v b (others u eu ▸ hu) (others v ev ▸ hv)

/-- Nothing happens to the lists, and some cells are let go. -/
theorem release (less : ∀ u, hand' u = hand u ∨ hand' u = none) :
    Apart next heads hand' lists where
  chain := h.chain
  nodup := h.nodup
  disjoint := h.disjoint
  outside u p b hb := by
    rcases less u with e | e
    · exact h.outside u p b (e ▸ hb)
    · rw [e] at hb; cases hb
  single u v b hu hv := by
    rcases less u with eu | eu
    · rcases less v with ev | ev
      · exact h.single u v b (eu ▸ hu) (ev ▸ hv)
      · rw [ev] at hv; cases hv
    · rw [eu] at hu; cases hu

/-- Only the successors of the cells in the lists matter. -/
theorem congr {next' : α → Option α} (same : ∀ p, ∀ a ∈ lists p, next' a = next a) :
    Apart next' heads hand lists where
  chain p := (h.chain p).congr (same p)
  nodup := h.nodup
  disjoint := h.disjoint
  outside := h.outside
  single := h.single

/-- A store to a cell in hand. -/
theorem store [DecidableEq α] {b : Option α} (held : hand t = some a) :
    Apart (Function.update next a b) heads hand lists where
  chain p := (h.chain p).update (h.outside t p a held)
  nodup := h.nodup
  disjoint := h.disjoint
  outside := h.outside
  single := h.single

variable (heads') in
/-- Some lists are forgotten. -/
theorem forget (less : ∀ p, heads' p = heads p ∨ heads' p = none) :
    ∃ lists', Apart next heads' hand lists' ∧ (∀ p a, a ∈ lists' p → a ∈ lists p) ∧
      ∀ p, heads' p = heads p → lists' p = lists p := by
  classical
  obtain ⟨chain, nodup, disjoint, outside, single⟩ := h
  refine ⟨fun p => if heads' p = heads p then lists p else [], ⟨fun p => ?_, fun p => ?_, ?_, ?_,
    single⟩, fun p b hb => ?_, fun p hp => if_pos hp⟩
  · split
    · next e => rw [e]; exact chain p
    · next e => exact (less p).resolve_left e
  · split
    · exact nodup p
    · exact List.nodup_nil
  · grind
  · grind
  · grind

variable (heads' hand') in
/-- A cell in hand that points to the head of a list becomes its head. -/
theorem push (held : hand t = some a) (link : next a = heads p) (top : heads' p = some a)
    (rest : ∀ q, q ≠ p → heads' q = heads q) (mine : hand' t = none)
    (others : ∀ u, u ≠ t → hand' u = hand u) :
    ∃ lists', Apart next heads' hand' lists' ∧ lists' p = a :: lists p ∧
      ∀ q, q ≠ p → lists' q = lists q := by
  classical
  obtain ⟨chain, nodup, disjoint, outside, single⟩ := h
  have hands (u : T) : hand' u = if u = t then none else hand u := by
    split
    · next e => rw [e, mine]
    · next e => exact others u e
  refine ⟨Function.update lists p (a :: lists p), ⟨fun q => ?_, fun q => ?_, ?_, ?_, ?_⟩,
    Function.update_self .., fun q hq => Function.update_of_ne hq ..⟩
  · rw [Function.update_apply]
    split
    · next e => subst e; exact ⟨top, link ▸ chain q⟩
    · next e => rw [rest q e]; exact chain q
  · rw [Function.update_apply]
    split
    · exact (nodup p).cons (outside t p a held)
    · exact nodup q
  · simp only [Function.update_apply]
    grind
  · simp only [Function.update_apply]
    grind
  · grind

variable (heads' hand') in
/-- The first cell of a list is taken off. -/
theorem pop (top : heads p = some a) (next_top : heads' p = next a)
    (rest : ∀ q, q ≠ p → heads' q = heads q) (mine : hand' t = some a)
    (others : ∀ u, u ≠ t → hand' u = hand u) :
    ∃ lists', Apart next heads' hand' lists' ∧ lists p = a :: lists' p ∧
      ∀ q, q ≠ p → lists' q = lists q := by
  classical
  obtain ⟨chain, nodup, disjoint, outside, single⟩ := h
  have hands (u : T) : hand' u = if u = t then some a else hand u := by
    split
    · next e => rw [e, mine]
    · next e => exact others u e
  have first := chain p
  rw [top] at first
  obtain ⟨tail, hp, htail⟩ := first.uncons
  refine ⟨Function.update lists p tail, ⟨fun q => ?_, fun q => ?_, ?_, ?_, ?_⟩,
    by rw [Function.update_self, hp], fun q hq => Function.update_of_ne hq ..⟩
  · rw [Function.update_apply]
    split
    · next e => subst e; rw [next_top]; exact htail
    · next e => rw [rest q e]; exact chain q
  · rw [Function.update_apply]
    split
    · have := nodup p
      rw [hp] at this
      exact this.of_cons
    · exact nodup q
  · simp only [Function.update_apply]
    grind
  · simp only [Function.update_apply]
    grind
  · grind

variable (heads') in
/-- A whole list moves to an empty place. -/
theorem move {q : P} (ne : p ≠ q) (empty : heads q = none) (moved : heads' q = heads p)
    (left : heads' p = none) (rest : ∀ r, r ≠ p → r ≠ q → heads' r = heads r) :
    ∃ lists', Apart next heads' hand lists' ∧ lists' q = lists p ∧ lists' p = [] ∧
      ∀ r, r ≠ p → r ≠ q → lists' r = lists r := by
  classical
  obtain ⟨chain, nodup, disjoint, outside, single⟩ := h
  refine ⟨Function.update (Function.update lists q (lists p)) p [],
    ⟨fun r => ?_, fun r => ?_, ?_, ?_, single⟩, ?_, Function.update_self .., fun r hp hq => ?_⟩
  · simp only [Function.update_apply]
    split
    · next e => subst e; exact left
    · split
      · next e => subst e; rw [moved]; exact chain p
      · next hp hq => rw [rest r hp hq]; exact chain r
  · simp only [Function.update_apply]
    split
    · exact List.nodup_nil
    · split <;> exact nodup _
  · simp only [Function.update_apply]
    grind
  · simp only [Function.update_apply]
    grind
  · rw [Function.update_of_ne ne.symm, Function.update_self]
  · rw [Function.update_of_ne hp, Function.update_of_ne hq]

variable (heads') in
/-- The list of `q` is appended to the list of `p` behind its last cell `a`. -/
theorem join [DecidableEq α] {q : P} (ne : p ≠ q) (mem : a ∈ lists p) (ends : next a = none)
    (same : heads' p = heads p) (left : heads' q = none)
    (rest : ∀ r, r ≠ p → r ≠ q → heads' r = heads r) :
    ∃ lists', Apart (Function.update next a (heads q)) heads' hand lists' ∧
      lists' p = lists p ++ lists q ∧ lists' q = [] ∧
      ∀ r, r ≠ p → r ≠ q → lists' r = lists r := by
  classical
  obtain ⟨chain, nodup, disjoint, outside, single⟩ := h
  obtain ⟨front, hfront⟩ := (chain p).last mem ends
  refine ⟨Function.update (Function.update lists p (lists p ++ lists q)) q [],
    ⟨fun r => ?_, fun r => ?_, ?_, ?_, single⟩, ?_, Function.update_self .., fun r hp hq => ?_⟩
  · simp only [Function.update_apply]
    split
    · next e => subst e; exact left
    · split
      · next e =>
        subst e
        have hp := chain r
        have nd := nodup r
        rw [hfront] at hp nd ⊢
        rw [same, List.append_assoc]
        refine hp.join (chain q) ?_ fun hq => ne (disjoint r q a mem hq)
        exact fun hin => (List.nodup_append.mp nd).2.2 a hin a (by simp) rfl
      · next hp hq =>
        rw [rest r hq hp]
        exact (chain r).update fun hr => hq (disjoint r p a hr mem)
  · simp only [Function.update_apply]
    split
    · exact List.nodup_nil
    · split
      · refine List.nodup_append'.mpr ⟨nodup p, nodup q, fun b hp hq => ne (disjoint p q b hp hq)⟩
      · exact nodup r
  · simp only [Function.update_apply]
    grind
  · simp only [Function.update_apply]
    grind
  · rw [Function.update_of_ne ne, Function.update_self]
  · rw [Function.update_of_ne hq, Function.update_of_ne hp]

end Apart

end LinkedList
