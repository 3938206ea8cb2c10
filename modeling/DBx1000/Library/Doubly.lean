import DBx1000.Library.Chain

/-!
# Doubly linked lists and loops along a list

`Doubly next prev head tail cells` says that the cells are a chain forwards from the head
and, in the opposite order, a chain backwards from the tail. Every update of such a list
changes both chains at one place, and `Chain.splice` is the rule for both: behind the
front of a list a new back is linked in.

`seek`, `seekWithPrev` and `walk` are the loops of a program along a list, with a bound on
the number of their rounds; on a chain that is not longer than the bound they compute the
corresponding functions of lists.
-/

namespace LinkedList

variable {α : Type*} {next next' prev : α → Option α} {head head' tail mid : Option α}
  {cells front back back' : List α}

/-! ### Replacing the back of a list -/

/-- The part of a chain behind its front is a chain. -/
theorem Chain.suffix (h : Chain next head (front ++ back)) :
    ∃ mid, Chain next mid back ∧ (front = [] → mid = head) ∧
      ∀ a, front.getLast? = some a → next a = mid := by
  induction front generalizing head with
  | nil => exact ⟨head, h, fun _ => rfl, by simp⟩
  | cons b front ih =>
    obtain ⟨mid, hmid, first, last⟩ := ih h.2
    refine ⟨mid, hmid, by simp, fun a ha => ?_⟩
    cases front with
    | nil =>
      cases ha
      exact (first rfl).symm
    | cons c front => exact last a (by rwa [List.getLast?_cons_cons] at ha)

/-- Behind the front of a list, whose cells keep their successors except for the last one,
a new back is linked in. -/
theorem Chain.splice (mid : Option α) (h : Chain next head (front ++ back))
    (hback : Chain next' mid back')
    (nodup : front.Nodup) (same : ∀ a ∈ front, front.getLast? ≠ some a → next' a = next a)
    (link : ∀ a, front.getLast? = some a → next' a = mid)
    (first : head' = if front = [] then mid else head) : Chain next' head' (front ++ back') := by
  induction front generalizing head head' with
  | nil =>
    rw [first]
    exact hback
  | cons a front ih =>
    obtain ⟨ha, hrest⟩ := h
    refine ⟨by rw [first, if_neg (by simp), ha], ?_⟩
    cases front with
    | nil =>
      rw [link a rfl]
      exact hback
    | cons b front =>
      have outside : a ∉ b :: front := (List.nodup_cons.mp nodup).1
      have inner : next' a = next a := by
        apply same a List.mem_cons_self
        rw [List.getLast?_cons_cons]
        exact fun e => outside (List.mem_of_getLast? e)
      refine ih hrest (List.nodup_cons.mp nodup).2 (fun c hc notLast => ?_) (fun c hc => ?_) ?_
      · exact same c (List.mem_cons_of_mem _ hc) (by rwa [List.getLast?_cons_cons])
      · exact link c (by rwa [List.getLast?_cons_cons])
      · rw [inner, if_neg (by simp)]

/-! ### Doubly linked lists -/

/-- Cells linked forwards from the head and backwards from the tail. -/
structure Doubly (next prev : α → Option α) (head tail : Option α) (cells : List α) : Prop where
  forward : Chain next head cells
  backward : Chain prev tail cells.reverse

theorem Chain.head_eq (h : Chain next head cells) : head = cells.head? := by
  cases cells with
  | nil => exact h
  | cons a cells => exact h.1

theorem Doubly.tail_eq (h : Doubly next prev head tail cells) : tail = cells.getLast? := by
  rw [h.backward.head_eq, List.head?_reverse]

/-- The successor of the last cell of the front is the first cell of the back. -/
theorem Chain.next_eq {a : α} (h : Chain next head (front ++ a :: back)) :
    next a = back.head? := by
  obtain ⟨mid, hmid, -, -⟩ := h.suffix
  exact hmid.2.head_eq

theorem Doubly.prev_eq {a : α} (h : Doubly next prev head tail (front ++ a :: back)) :
    prev a = front.getLast? := by
  have hb := h.backward
  rw [List.reverse_append, List.reverse_cons, List.append_assoc, List.singleton_append] at hb
  rw [Chain.next_eq hb, List.head?_reverse]

theorem head_eq_iff {a : α} (nodup : (front ++ a :: back).Nodup) :
    some a = (front ++ a :: back).head? ↔ front = [] := by
  cases front with
  | nil => simp
  | cons b front =>
    have ne : a ≠ b := by
      rintro rfl
      exact (List.nodup_cons.mp nodup).1 (by simp)
    simpa using ne

theorem getLast_eq_iff {a : α} (nodup : (front ++ a :: back).Nodup) :
    some a = (front ++ a :: back).getLast? ↔ back = [] := by
  have reversed := List.nodup_reverse.mpr nodup
  rw [List.reverse_append, List.reverse_cons, List.append_assoc, List.singleton_append] at reversed
  rw [← List.head?_reverse, List.reverse_append, List.reverse_cons, List.append_assoc,
    List.singleton_append, head_eq_iff reversed, List.reverse_eq_nil_iff]

/-- Pointers outside the list do not matter. -/
theorem Doubly.congr {next' prev' : α → Option α} (h : Doubly next prev head tail cells)
    (hnext : ∀ a ∈ cells, next' a = next a) (hprev : ∀ a ∈ cells, prev' a = prev a) :
    Doubly next' prev' head tail cells where
  forward := h.forward.congr hnext
  backward := h.backward.congr fun a ha => hprev a (List.mem_reverse.mp ha)

/-- One direction of an insertion: the last cell of the front links to the new cell. -/
theorem Chain.insert [DecidableEq α] {new : α} (h : Chain next head (front ++ back))
    (nodup : (front ++ back).Nodup) (link : next' new = back.head?)
    (hnext : ∀ a ∈ front ++ back,
      next' a = if front.getLast? = some a then some new else next a)
    (first : head' = if front = [] then some new else head) :
    Chain next' head' (front ++ new :: back) := by
  obtain ⟨mid, hback, -, -⟩ := h.suffix
  refine Chain.splice (some new) h ⟨rfl, ?_⟩ (List.nodup_append.mp nodup).1
    (fun a ha notLast => ?_) (fun a last => ?_) first
  · rw [link, ← hback.head_eq]
    refine hback.congr fun a ha => ?_
    rw [hnext a (List.mem_append_right _ ha), if_neg]
    intro last
    exact (List.nodup_append.mp nodup).2.2 a (List.mem_of_getLast? last) a ha rfl
  · rw [hnext a (List.mem_append_left _ ha), if_neg notLast]
  · rw [hnext a (List.mem_append_left _ (List.mem_of_getLast? last)), if_pos last]

/-- One direction of a removal: the last cell of the front links past the removed cell. -/
theorem Chain.remove [DecidableEq α] {en : α} (h : Chain next head (front ++ en :: back))
    (nodup : (front ++ en :: back).Nodup)
    (hnext : ∀ a ∈ front ++ back,
      next' a = if front.getLast? = some a then back.head? else next a)
    (first : head' = if front = [] then back.head? else head) :
    Chain next' head' (front ++ back) := by
  obtain ⟨mid, hback, -, -⟩ := h.suffix
  have apart := (List.nodup_append.mp nodup).2.2
  refine Chain.splice back.head? h ?_ (List.nodup_append.mp nodup).1
    (fun a ha notLast => ?_) (fun a last => ?_) first
  · rw [← hback.2.head_eq]
    refine hback.2.congr fun a ha => ?_
    rw [hnext a (List.mem_append_right _ ha), if_neg]
    exact fun last => apart a (List.mem_of_getLast? last) a (List.mem_cons_of_mem _ ha) rfl
  · rw [hnext a (List.mem_append_left _ ha), if_neg notLast]
  · rw [hnext a (List.mem_append_left _ (List.mem_of_getLast? last)), if_pos last]

section Update

variable [DecidableEq α] {next' prev' : α → Option α} {tail' : Option α}

/-- A new cell is linked in between the front and the back. -/
theorem Doubly.insert {new : α} (h : Doubly next prev head tail (front ++ back))
    (nodup : (front ++ back).Nodup) (linkNext : next' new = back.head?)
    (linkPrev : prev' new = front.getLast?)
    (hnext : ∀ a ∈ front ++ back,
      next' a = if front.getLast? = some a then some new else next a)
    (hprev : ∀ a ∈ front ++ back, prev' a = if back.head? = some a then some new else prev a)
    (first : head' = if front = [] then some new else head)
    (last : tail' = if back = [] then some new else tail) :
    Doubly next' prev' head' tail' (front ++ new :: back) where
  forward := h.forward.insert nodup linkNext hnext first
  backward := by
    have hb := h.backward
    rw [List.reverse_append] at hb
    rw [List.reverse_append, List.reverse_cons, List.append_assoc, List.singleton_append]
    refine hb.insert ?_ (by simpa using linkPrev) (fun a ha => ?_) (by simpa using last)
    · rw [← List.reverse_append]
      exact List.nodup_reverse.mpr nodup
    · rw [List.getLast?_reverse]
      exact hprev a (by simpa [or_comm] using ha)

/-- The cell between the front and the back is left out. -/
theorem Doubly.remove {en : α} (h : Doubly next prev head tail (front ++ en :: back))
    (nodup : (front ++ en :: back).Nodup)
    (hnext : ∀ a ∈ front ++ back,
      next' a = if front.getLast? = some a then back.head? else next a)
    (hprev : ∀ a ∈ front ++ back,
      prev' a = if back.head? = some a then front.getLast? else prev a)
    (first : head' = if front = [] then back.head? else head)
    (last : tail' = if back = [] then front.getLast? else tail) :
    Doubly next' prev' head' tail' (front ++ back) where
  forward := h.forward.remove nodup hnext first
  backward := by
    have hb := h.backward
    rw [List.reverse_append, List.reverse_cons, List.append_assoc, List.singleton_append] at hb
    rw [List.reverse_append]
    refine hb.remove ?_ (fun a ha => ?_) (by simpa using last)
    · have := List.nodup_reverse.mpr nodup
      rwa [List.reverse_append, List.reverse_cons, List.append_assoc] at this
    · rw [List.getLast?_reverse, List.head?_reverse]
      exact hprev a (by simpa [or_comm] using ha)

end Update

/-! ### Loops along a list -/

/-- `while (en != NULL && !stop(en)) en = en->next`, for at most `n` rounds. -/
def seek (next : α → Option α) (stop : α → Bool) : Nat → Option α → Option α
  | n + 1, some en => if stop en then some en else seek next stop n (next en)
  | _, _ => none

/-- The same loop with `prev = en` in its body: the last cell before the one found. -/
def seekWithPrev (next : α → Option α) (stop : α → Bool) :
    Nat → Option α → Option α → Option α × Option α
  | n + 1, prev, some en =>
    if stop en then (prev, some en) else seekWithPrev next stop n (some en) (next en)
  | _, prev, _ => (prev, none)

/-- All cells that the loop visits. -/
def walk (next : α → Option α) : Nat → Option α → List α
  | n + 1, some en => en :: walk next n (next en)
  | _, _ => []

variable (stop : α → Bool) (before : Option α) {n : Nat}

theorem Chain.seek_eq (h : Chain next head cells) (enough : cells.length ≤ n) :
    seek next stop n head = cells.find? stop := by
  induction cells generalizing head n with
  | nil =>
    cases h
    cases n <;> rfl
  | cons a cells ih =>
    obtain ⟨rfl, hrest⟩ := h
    cases n with
    | zero => simp at enough
    | succ n =>
      rw [seek, List.find?_cons]
      cases stop a with
      | true => rfl
      | false => exact ih hrest (by simpa using enough)

theorem Chain.walk_eq (h : Chain next head cells) (enough : cells.length ≤ n) :
    walk next n head = cells := by
  induction cells generalizing head n with
  | nil =>
    cases h
    cases n <;> rfl
  | cons a cells ih =>
    obtain ⟨rfl, hrest⟩ := h
    cases n with
    | zero => simp at enough
    | succ n => rw [walk, ih hrest (by simpa using enough)]

/-- The search for a cell that exists ends at the first such cell, with the cell before it. -/
theorem Chain.seekWithPrev_eq {a : α}
    (h : Chain next head (front ++ a :: back)) (enough : front.length < n)
    (skips : ∀ b ∈ front, stop b = false) (stops : stop a = true) :
    seekWithPrev next stop n before head = (front.getLast?.or before, some a) := by
  induction front generalizing head n before with
  | nil =>
    obtain ⟨rfl, -⟩ := h
    cases n with
    | zero => simp at enough
    | succ n => simp [seekWithPrev, stops]
  | cons b front ih =>
    obtain ⟨rfl, hrest⟩ := h
    cases n with
    | zero => simp at enough
    | succ n =>
      rw [seekWithPrev, skips b List.mem_cons_self]
      have rest := ih (some b) hrest (by simpa using enough)
        fun c hc => skips c (List.mem_cons_of_mem _ hc)
      rw [if_neg (by simp), rest]
      cases front with
      | nil => rfl
      | cons c front => simp [List.getLast?_cons]

theorem Chain.seekWithPrev_none (h : Chain next head cells)
    (skips : ∀ b ∈ cells, stop b = false) : (seekWithPrev next stop n before head).2 = none := by
  induction cells generalizing head n before with
  | nil =>
    cases h
    cases n <;> rfl
  | cons b cells ih =>
    obtain ⟨rfl, hrest⟩ := h
    cases n with
    | zero => rfl
    | succ n =>
      rw [seekWithPrev, skips b List.mem_cons_self, if_neg (by simp)]
      exact ih _ hrest fun c hc => skips c (List.mem_cons_of_mem _ hc)

end LinkedList
