import DBx1000.Locking.Queue

/-!
# The lists of the lock

`Lists l os ws` says that the pointers of a lock form the two lists of addresses. For each
macro the pointers after it are computed once; with them, each macro does to the lists
what it is for, and leaves everything but pointers alone.
-/

namespace DBx1000.Locking

open LinkedList

variable {τ : Type*}

namespace RowLock

def request (l : RowLock τ) (en : Addr) : Request τ := ⟨(l.entry en).txn, (l.entry en).type⟩

variable (l : RowLock τ) (en new a : Addr)

/-! ### What the stores to pointers leave -/

@[simp] theorem next_setNext (n : Option Addr) :
    (l.setNext en n).next a = if a = en then n else l.next a := by
  by_cases e : a = en
  · subst e; simp [setNext, next]
  · simp [setNext, next, e]

@[simp] theorem prev_setNext (n : Option Addr) : (l.setNext en n).prev a = l.prev a := by
  by_cases e : a = en
  · subst e; simp [setNext, prev]
  · simp [setNext, prev, e]

@[simp] theorem request_setNext (n : Option Addr) : (l.setNext en n).request a = l.request a := by
  by_cases e : a = en
  · subst e; simp [setNext, request]
  · simp [setNext, request, e]

@[simp] theorem next_setPrev (p : Option Addr) : (l.setPrev en p).next a = l.next a := by
  by_cases e : a = en
  · subst e; simp [setPrev, next]
  · simp [setPrev, next, e]

@[simp] theorem prev_setPrev (p : Option Addr) :
    (l.setPrev en p).prev a = if a = en then p else l.prev a := by
  by_cases e : a = en
  · subst e; simp [setPrev, prev]
  · simp [setPrev, prev, e]

@[simp] theorem request_setPrev (p : Option Addr) : (l.setPrev en p).request a = l.request a := by
  by_cases e : a = en
  · subst e; simp [setPrev, request]
  · simp [setPrev, request, e]

@[simp] theorem waitersTail_setNext (n : Option Addr) :
    (l.setNext en n).waitersTail = l.waitersTail := rfl

@[simp] theorem waitersTail_setPrev (p : Option Addr) :
    (l.setPrev en p).waitersTail = l.waitersTail := rfl

section Entry

variable (lt : LockType) (oc wc : Nat) (o h t : Option Addr) (e : Addr → LockEntry τ)
  (u : Addr → Bool) (b : Bool)

@[simp] theorem next_mk : (RowLock.mk lt oc wc o h t e u b).next a = (e a).next := rfl
@[simp] theorem prev_mk : (RowLock.mk lt oc wc o h t e u b).prev a = (e a).prev := rfl
@[simp] theorem request_mk :
    (RowLock.mk lt oc wc o h t e u b).request a = ⟨(e a).txn, (e a).type⟩ := rfl

end Entry

@[simp] theorem next_entry : (l.entry a).next = l.next a := rfl
@[simp] theorem prev_entry : (l.entry a).prev = l.prev a := rfl
@[simp] theorem txn_entry : (l.entry a).txn = (l.request a).txn := rfl
@[simp] theorem type_entry : (l.entry a).type = (l.request a).type := rfl

/-! ### The pointers after each macro -/

theorem next_stackPush : (l.stackPush en).next a = if a = en then l.owners else l.next a := by
  simp [stackPush]

theorem prev_stackPush : (l.stackPush en).prev a = l.prev a := by
  simp [stackPush]

theorem next_listGetHead : (l.listGetHead en).next a = if a = en then none else l.next a := by
  cases h : l.next en <;> simp [listGetHead, h]

theorem prev_listGetHead :
    (l.listGetHead en).prev a = if l.next en = some a then none else l.prev a := by
  cases h : l.next en <;> simp [listGetHead, h, eq_comm (a := a)]

theorem next_listPutTail : (l.listPutTail new).next a =
    if l.waitersTail = some a then some new else if a = new then none else l.next a := by
  cases h : l.waitersTail <;> simp [listPutTail, h, eq_comm (a := a)]

theorem prev_listPutTail :
    (l.listPutTail new).prev a = if a = new then l.waitersTail else l.prev a := by
  cases h : l.waitersTail <;> simp only [listPutTail, waitersTail_setPrev, waitersTail_setNext, h] <;>
    by_cases e : a = new <;> simp [e]

theorem next_listInsertBefore (ne : new ≠ en) : (l.listInsertBefore en new).next a =
    if l.prev en = some a then some new else if a = new then some en else l.next a := by
  cases h : l.prev en <;> simp [listInsertBefore, ne.symm, h, eq_comm (a := a)]

theorem prev_listInsertBefore (ne : new ≠ en) : (l.listInsertBefore en new).prev a =
    if a = en then some new else if a = new then l.prev en else l.prev a := by
  cases h : l.prev en <;> simp [listInsertBefore, ne.symm, h]

theorem next_listRemove : (l.listRemove en).next a =
    if l.prev en = some a then l.next en else l.next a := by
  cases hn : l.next en <;> cases hp : l.prev en <;>
    simp [listRemove, hn, hp, eq_comm (a := a)]

theorem prev_listRemove : (l.listRemove en).prev a =
    if l.next en = some a then l.prev en else l.prev a := by
  cases hn : l.next en <;> cases hp : l.prev en <;>
    simp [listRemove, hn, hp, eq_comm (a := a)]

end RowLock

/-! ### What the macros leave alone -/

structure SameEntries (l l' : RowLock τ) : Prop where
  request : l'.request = l.request
  ownerCnt : l'.ownerCnt = l.ownerCnt
  waiterCnt : l'.waiterCnt = l.waiterCnt
  lockType : l'.lockType = l.lockType
  inUse : l'.inUse = l.inUse
  asserts : l'.asserts = l.asserts

theorem SameEntries.trans {l l' l'' : RowLock τ} (first : SameEntries l l')
    (second : SameEntries l' l'') : SameEntries l l'' :=
  ⟨second.request.trans first.request, second.ownerCnt.trans first.ownerCnt,
    second.waiterCnt.trans first.waiterCnt, second.lockType.trans first.lockType,
    second.inUse.trans first.inUse, second.asserts.trans first.asserts⟩

section SameEntries

variable (l : RowLock τ) (en new : Addr)

theorem sameEntries_stackPush : SameEntries l (l.stackPush en) :=
  ⟨funext fun a => by simp [RowLock.stackPush], rfl, rfl, rfl, rfl, rfl⟩

theorem sameEntries_unlinkOwner (prev : Option Addr) : SameEntries l (l.unlinkOwner prev en) := by
  cases prev <;> exact ⟨funext fun a => by simp [RowLock.unlinkOwner], rfl, rfl, rfl, rfl, rfl⟩

theorem sameEntries_listGetHead : SameEntries l (l.listGetHead en) := by
  unfold RowLock.listGetHead
  cases l.next en <;> exact ⟨funext fun a => by simp, rfl, rfl, rfl, rfl, rfl⟩

theorem sameEntries_listPutTail : SameEntries l (l.listPutTail new) := by
  unfold RowLock.listPutTail
  dsimp only
  split <;> exact ⟨funext fun a => by simp, rfl, rfl, rfl, rfl, rfl⟩

theorem sameEntries_listInsertBefore : SameEntries l (l.listInsertBefore en new) := by
  unfold RowLock.listInsertBefore
  dsimp only
  split <;> exact ⟨funext fun a => by simp, rfl, rfl, rfl, rfl, rfl⟩

theorem sameEntries_listRemove : SameEntries l (l.listRemove en) := by
  unfold RowLock.listRemove
  dsimp only
  split <;> split <;> exact ⟨funext fun a => by simp, rfl, rfl, rfl, rfl, rfl⟩

end SameEntries

/-! ### The macros on the lists -/

structure Lists (l : RowLock τ) (os ws : List Addr) : Prop where
  owners : Chain l.next l.owners os
  waiters : Doubly l.next l.prev l.waitersHead l.waitersTail ws
  nodup : (os ++ ws).Nodup

namespace Lists

variable {l l' : RowLock τ} {os ws front back : List Addr} {en new : Addr}

/-- Stores to a cell outside of the lists. -/
theorem congr (h : Lists l os ws) (hnext : ∀ a ∈ os ++ ws, l'.next a = l.next a)
    (hprev : ∀ a ∈ ws, l'.prev a = l.prev a) (owners : l'.owners = l.owners)
    (head : l'.waitersHead = l.waitersHead) (tail : l'.waitersTail = l.waitersTail) :
    Lists l' os ws where
  owners := owners ▸ h.owners.congr fun a ha => hnext a (List.mem_append_left _ ha)
  waiters := by
    rw [head, tail]
    exact h.waiters.congr (fun a ha => hnext a (List.mem_append_right _ ha)) hprev
  nodup := h.nodup

theorem waiters_nodup (h : Lists l os ws) : ws.Nodup := (List.nodup_append.mp h.nodup).2.1

theorem apart (h : Lists l os ws) {a : Addr} (ha : a ∈ os) : a ∉ ws :=
  fun ha' => (List.nodup_append.mp h.nodup).2.2 a ha a ha' rfl

theorem stackPush (h : Lists l os ws) (outside : en ∉ os ++ ws) :
    Lists (l.stackPush en) (en :: os) ws := by
  have ne (a) (ha : a ∈ os ++ ws) : a ≠ en := by
    rintro rfl
    exact outside ha
  refine ⟨⟨rfl, ?_⟩, ?_, List.nodup_cons.mpr ⟨outside, h.nodup⟩⟩
  · rw [RowLock.next_stackPush, if_pos rfl]
    refine h.owners.congr fun a ha => ?_
    rw [RowLock.next_stackPush, if_neg (ne a (List.mem_append_left _ ha))]
  · refine h.waiters.congr (fun a ha => ?_) fun a _ => RowLock.prev_stackPush ..
    rw [RowLock.next_stackPush, if_neg (ne a (List.mem_append_right _ ha))]

/-- An entry leaves the owners; `prev` was the one before it. -/
theorem unlinkOwner (h : Lists l (front ++ en :: back) ws) :
    Lists (l.unlinkOwner front.getLast? en) (front ++ back) ws := by
  have nodup := (List.nodup_append.mp h.nodup).1
  have succ : l.next en = back.head? := h.owners.next_eq
  have less : (front ++ back).Sublist (front ++ en :: back) :=
    (List.sublist_cons_self en back).append_left front
  have rest : (front ++ back ++ ws).Nodup := h.nodup.sublist (less.append_right ws)
  cases last : front.getLast? with
  | none =>
    have : front = [] := List.getLast?_eq_none_iff.mp last
    subst this
    exact ⟨h.owners.2, h.waiters, rest⟩
  | some prev =>
    have mem : prev ∈ front := List.mem_of_getLast? last
    refine ⟨h.owners.remove nodup (fun a _ => ?_) ?_, ?_, rest⟩
    · simp [RowLock.unlinkOwner, last, succ, eq_comm (a := a)]
    · rw [if_neg (List.ne_nil_of_mem mem)]
      rfl
    · refine h.waiters.congr (fun a ha => ?_) fun a _ => RowLock.prev_setNext ..
      refine (RowLock.next_setNext ..).trans (if_neg ?_)
      rintro rfl
      exact h.apart (List.mem_append_left _ mem) ha

theorem listGetHead (h : Lists l os (en :: ws)) : Lists (l.listGetHead en) os ws := by
  have outside : en ∉ os ++ ws := (List.nodup_cons.mp (List.perm_middle.nodup_iff.mp h.nodup)).1
  have ne (a) (ha : a ∈ os ++ ws) : a ≠ en := by
    rintro rfl
    exact outside ha
  have waiters : Doubly l.next l.prev l.waitersHead l.waitersTail ([] ++ en :: ws) := h.waiters
  have succ : l.next en = ws.head? := waiters.forward.next_eq
  have rest : (os ++ ws).Nodup := h.nodup.sublist ((List.sublist_cons_self en ws).append_left os)
  have same : (l.listGetHead en).owners = l.owners := by
    unfold RowLock.listGetHead
    cases l.next en <;> rfl
  refine ⟨?_, waiters.remove h.waiters_nodup (fun a ha => ?_) (fun a _ => ?_)
    ?_ ?_, rest⟩
  · rw [same]
    refine h.owners.congr fun a ha => ?_
    rw [RowLock.next_listGetHead, if_neg (ne a (List.mem_append_left _ ha))]
  · rw [RowLock.next_listGetHead, if_neg (ne a (List.mem_append_right _ ha)), if_neg (by simp)]
  · rw [RowLock.prev_listGetHead, succ, List.getLast?_nil]
  · rw [if_pos rfl, ← succ]
    unfold RowLock.listGetHead
    cases l.next en <;> rfl
  · unfold RowLock.listGetHead
    rw [succ]
    cases ws <;> rfl

theorem listPutTail (h : Lists l os ws) (outside : new ∉ os ++ ws) :
    Lists (l.listPutTail new) os (ws ++ [new]) := by
  have ne (a) (ha : a ∈ os ++ ws) : a ≠ new := by
    rintro rfl
    exact outside ha
  have tail : l.waitersTail = ws.getLast? := h.waiters.tail_eq
  have nodup : (os ++ (ws ++ [new])).Nodup := by
    rw [← List.append_assoc]
    exact (List.perm_append_singleton ..).nodup_iff.mpr (List.nodup_cons.mpr ⟨outside, h.nodup⟩)
  have same : (l.listPutTail new).owners = l.owners := by
    unfold RowLock.listPutTail
    dsimp only
    split <;> rfl
  have waiters := h.waiters
  rw [← List.append_nil ws] at waiters
  refine ⟨?_, waiters.insert (by simpa using h.waiters_nodup) ?_ ?_ (fun a ha => ?_) (fun a ha => ?_)
    ?_ ?_, nodup⟩
  · rw [same]
    refine h.owners.congr fun a ha => ?_
    have notTail : l.waitersTail ≠ some a := by
      rw [tail]
      exact fun e => h.apart ha (List.mem_of_getLast? e)
    rw [RowLock.next_listPutTail, if_neg notTail, if_neg (ne a (List.mem_append_left _ ha))]
  · have notTail : l.waitersTail ≠ some new := by
      rw [tail]
      exact fun e => ne new (List.mem_append_right _ (List.mem_of_getLast? e)) rfl
    rw [RowLock.next_listPutTail, if_neg notTail, if_pos rfl, List.head?_nil]
  · rw [RowLock.prev_listPutTail, if_pos rfl, tail]
  · have : a ≠ new := ne a (List.mem_append_right _ (by simpa using ha))
    rw [RowLock.next_listPutTail, if_neg this, tail]
  · have : a ≠ new := ne a (List.mem_append_right _ (by simpa using ha))
    rw [RowLock.prev_listPutTail, if_neg this, if_neg (by simp)]
  · unfold RowLock.listPutTail
    dsimp only [RowLock.waitersTail_setPrev, RowLock.waitersTail_setNext]
    rw [tail]
    cases ws with
    | nil => rfl
    | cons w ws => rw [if_neg (by simp), List.getLast?_cons]; rfl
  · rw [if_pos rfl]
    unfold RowLock.listPutTail
    dsimp only
    split <;> rfl

/-- The new entry is linked in before `en`; at the front of the list it becomes the head. -/
theorem listInsertBefore (h : Lists l os (front ++ en :: back)) (outside : new ∉ os ++ (front ++ en :: back)) :
    Lists { l.listInsertBefore en new with
      waitersHead := if front = [] then some new else l.waitersHead }
      os (front ++ new :: en :: back) := by
  have ne (a) (ha : a ∈ os ++ (front ++ en :: back)) : a ≠ new := by
    rintro rfl
    exact outside ha
  have neEn : new ≠ en := (ne en (by simp)).symm
  have pred : l.prev en = front.getLast? := h.waiters.prev_eq
  have perm : (os ++ (front ++ new :: en :: back)).Perm (new :: (os ++ (front ++ en :: back))) :=
    (List.perm_middle.append_left os).trans List.perm_middle
  have nodup : (os ++ (front ++ new :: en :: back)).Nodup :=
    perm.nodup_iff.mpr (List.nodup_cons.mpr ⟨outside, h.nodup⟩)
  have owners : (l.listInsertBefore en new).owners = l.owners := by
    unfold RowLock.listInsertBefore
    dsimp only
    split <;> rfl
  have tail : (l.listInsertBefore en new).waitersTail = l.waitersTail := by
    unfold RowLock.listInsertBefore
    dsimp only
    split <;> rfl
  refine ⟨?_, h.waiters.insert h.waiters_nodup ?_ ?_ (fun a ha => ?_) (fun a ha => ?_) rfl ?_, nodup⟩
  · rw [owners]
    refine h.owners.congr fun a ha => ?_
    have notPrev : l.prev en ≠ some a := by
      rw [pred]
      exact fun e => h.apart ha (List.mem_append_left _ (List.mem_of_getLast? e))
    refine (RowLock.next_listInsertBefore _ _ _ _ neEn).trans ?_
    rw [if_neg notPrev, if_neg (ne a (List.mem_append_left _ ha))]
  · have notPrev : l.prev en ≠ some new := by
      rw [pred]
      exact fun e => ne new (by simp [List.mem_of_getLast? e]) rfl
    refine (RowLock.next_listInsertBefore _ _ _ _ neEn).trans ?_
    rw [if_neg notPrev, if_pos rfl, List.head?_cons]
  · refine (RowLock.prev_listInsertBefore _ _ _ _ neEn).trans ?_
    rw [if_neg neEn, if_pos rfl, pred]
  · refine (RowLock.next_listInsertBefore _ _ _ _ neEn).trans ?_
    rw [if_neg (ne a (List.mem_append_right _ ha)), pred]
  · refine (RowLock.prev_listInsertBefore _ _ _ _ neEn).trans ?_
    rw [if_neg (ne a (List.mem_append_right _ ha))]
    simp [eq_comm (a := a)]
  · rw [if_neg (List.cons_ne_nil en back)]
    exact tail

/-- The entry leaves the waiters; the pointers to the ends follow. -/
theorem listRemove (h : Lists l os (front ++ en :: back)) :
    Lists { l.listRemove en with
      waitersHead := if front = [] then l.next en else l.waitersHead
      waitersTail := if back = [] then l.prev en else l.waitersTail } os (front ++ back) := by
  have pred : l.prev en = front.getLast? := h.waiters.prev_eq
  have succ : l.next en = back.head? := h.waiters.forward.next_eq
  have less : (front ++ back).Sublist (front ++ en :: back) :=
    (List.sublist_cons_self en back).append_left front
  have owners : (l.listRemove en).owners = l.owners := by
    unfold RowLock.listRemove
    dsimp only
    split <;> split <;> rfl
  refine ⟨?_, h.waiters.remove h.waiters_nodup (fun a _ => ?_) (fun a _ => ?_) ?_ ?_,
    h.nodup.sublist (less.append_left os)⟩
  · rw [owners]
    refine h.owners.congr fun a ha => ?_
    have notPrev : l.prev en ≠ some a := by
      rw [pred]
      exact fun e => h.apart ha (List.mem_append_left _ (List.mem_of_getLast? e))
    exact (RowLock.next_listRemove ..).trans (if_neg notPrev)
  · refine (RowLock.next_listRemove ..).trans ?_
    rw [pred, succ]
  · refine (RowLock.prev_listRemove ..).trans ?_
    rw [pred, succ]
  · rw [succ]
  · rw [pred]

end Lists

end DBx1000.Locking
