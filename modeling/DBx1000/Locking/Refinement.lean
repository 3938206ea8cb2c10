import DBx1000.Locking.Pointers

/-!
# The lock implements the queue

`Represents l q` says that the lock is in a state of the queue `q`: its lists are well
formed, their entries are the requests, the counters and the mode are right, and no entry
is in use outside the lists. `lockGet` and `lockRelease` do to the queue what `Queue.get`
and `Queue.release` say, and no `ASSERT` fails.
-/

namespace DBx1000.Locking

open LinkedList RowLock

variable {τ : Type*}

/-! ### The state of the queue -/

/-- The lock with its lists of addresses is in a state of the queue. -/
structure Shape (l : RowLock τ) (os ws : List Addr) (q : Queue τ) : Prop where
  lists : Lists l os ws
  owners : os.map l.request = q.owners
  waiters : ws.map l.request = q.waiters
  inUse : ∀ en, l.inUse en = true ↔ en ∈ os ++ ws
  ownerCnt : l.ownerCnt = os.length
  waiterCnt : l.waiterCnt = ws.length
  lockType : l.lockType = modeOf q.owners

def Represents (l : RowLock τ) (q : Queue τ) : Prop := ∃ os ws, Shape l os ws q

namespace Shape

variable {l : RowLock τ} {os ws : List Addr} {q : Queue τ} {new : Addr} {type : LockType} {txn : τ}

theorem check {b : Bool} (h : Shape l os ws q) : Shape (l.check b) os ws q :=
  ⟨h.lists.congr (fun _ _ => rfl) (fun _ _ => rfl) rfl rfl rfl, h.owners, h.waiters, h.inUse,
    h.ownerCnt, h.waiterCnt, h.lockType⟩

theorem unused (h : Shape l os ws q) (fresh : l.inUse new = false) : new ∉ os ++ ws := by
  intro mem
  rw [(h.inUse new).mpr mem] at fresh
  cases fresh

theorem head_eq (h : Shape l os ws q) : l.waitersHead.map l.request = q.waiters.head? := by
  rw [h.lists.waiters.forward.head_eq, ← h.waiters, List.head?_map]

variable (type txn) in
/-- The new entry is outside the lists, which it does not change. -/
theorem getEntry (h : Shape l os ws q) (fresh : l.inUse new = false) :
    Lists (l.getEntry new type txn) os ws ∧
      (l.getEntry new type txn).request new = ⟨txn, type⟩ ∧
      ∀ en ∈ os ++ ws, (l.getEntry new type txn).request en = l.request en := by
  have next : (l.getEntry new type txn).next = l.next := by
    funext a
    by_cases e : a = new
    · subst e; simp [RowLock.getEntry]
    · simp [RowLock.getEntry, e]
  have prev : (l.getEntry new type txn).prev = l.prev := by
    funext a
    by_cases e : a = new
    · subst e; simp [RowLock.getEntry]
    · simp [RowLock.getEntry, e]
  refine ⟨h.lists.congr (fun a _ => congrFun next a) (fun a _ => congrFun prev a) rfl rfl rfl,
    by simp [RowLock.getEntry], fun en mem => ?_⟩
  have ne : en ≠ new := by
    rintro rfl
    exact h.unused fresh mem
  simp [RowLock.getEntry, ne]

/-- The transaction waits: its entry is linked in between the waiters. -/
theorem wait {l' : RowLock τ} {front back : List Addr} (h : Shape l os (front ++ back) q)
    (fresh : l.inUse new = false) (linked : Lists l' os (front ++ new :: back))
    (same : SameEntries (l.getEntry new type txn) l') :
    Shape { l' with waiterCnt := l'.waiterCnt + 1 } os (front ++ new :: back)
      { q with waiters := (front.map l.request) ++ ⟨txn, type⟩ :: back.map l.request } := by
  obtain ⟨-, atNew, others⟩ := h.getEntry type txn fresh
  -- the entries that stood in the lists keep their requests
  have kept (en) (mem : en ∈ os ++ (front ++ back)) : l'.request en = l.request en :=
    (congrFun same.request en).trans (others en mem)
  constructor
  case lists => exact linked.congr (fun _ _ => rfl) (fun _ _ => rfl) rfl rfl rfl
  case owners =>
    rw [← h.owners]
    exact List.map_congr_left fun en mem => kept en (List.mem_append_left _ mem)
  case waiters =>
    have first : front.map l'.request = front.map l.request :=
      List.map_congr_left fun en mem => kept en (by simp [mem])
    have last : back.map l'.request = back.map l.request :=
      List.map_congr_left fun en mem => kept en (by simp [mem])
    have middle : l'.request new = ⟨txn, type⟩ := (congrFun same.request new).trans atNew
    rw [← first, ← last, ← middle, ← List.map_cons, ← List.map_append]
    rfl
  -- the new entry is the only one that comes into use
  case inUse =>
    intro en
    have used : l'.inUse en = Function.update l.inUse new true en := congrFun same.inUse en
    have before := h.inUse en
    simp only [List.mem_append, List.mem_cons] at before ⊢
    rw [used, Function.update_apply]
    split
    · next e => simp [e]
    · next e =>
      rw [before]
      simp [e]
  case ownerCnt => exact same.ownerCnt.trans h.ownerCnt
  case waiterCnt =>
    have := h.waiterCnt
    have := same.waiterCnt
    simp only [List.length_append, List.length_cons, RowLock.getEntry] at *
    omega
  case lockType => exact same.lockType.trans h.lockType

/-- The transaction joins the owners. -/
theorem own (h : Shape l os ws q) (fresh : l.inUse new = false) :
    Shape { (l.getEntry new type txn).stackPush new with
        ownerCnt := l.ownerCnt + 1, lockType := type } (new :: os) ws
      { q with owners := ⟨txn, type⟩ :: q.owners } := by
  obtain ⟨lists, atNew, others⟩ := h.getEntry type txn fresh
  -- the entry is pushed on the list of the owners, whose mode becomes its own
  have same := sameEntries_stackPush (l.getEntry new type txn) new
  have pushed := lists.stackPush (h.unused fresh)
  constructor
  case lists => exact pushed.congr (fun _ _ => rfl) (fun _ _ => rfl) rfl rfl rfl
  case owners =>
    have rest : os.map ((l.getEntry new type txn).stackPush new).request = q.owners := by
      rw [← h.owners, same.request]
      exact List.map_congr_left fun en mem => others en (List.mem_append_left _ mem)
    rw [← atNew, ← rest, ← same.request, ← List.map_cons]
    rfl
  case waiters =>
    rw [← h.waiters]
    refine List.map_congr_left fun en mem => ?_
    exact (congrFun same.request en).trans (others en (List.mem_append_right _ mem))
  case inUse =>
    intro en
    have before := h.inUse en
    rw [List.cons_append, List.mem_cons, ← before]
    change Function.update l.inUse new true en = true ↔ _
    rw [Function.update_apply]
    split
    · next e => simp [e]
    · next e => simp [e]
  case ownerCnt => rw [List.length_cons, ← h.ownerCnt]
  case waiterCnt => exact h.waiterCnt
  case lockType => exact rfl

end Shape

/-! ### `lock_get` -/

section Get

variable [DecidableEq τ] {l : RowLock τ} {os ws : List Addr} {q : Queue τ} {new : Addr} {type : LockType}
  {txn : τ} {cfg : Config} {ts : τ → Nat}

omit [DecidableEq τ] in
variable (type txn cfg ts) in
theorem Shape.conflict_iff (h : Shape l os ws q) :
    l.conflict cfg ts type txn = true ↔ q.blocks cfg.ccAlg ts ⟨txn, type⟩ := by
  have head := h.head_eq
  have empty : l.waitersHead = none ↔ q.waiters = [] := by
    rw [← List.head?_eq_none_iff, ← head, Option.map_eq_none_iff]
  unfold RowLock.conflict Queue.blocks
  rw [h.lockType, ← head]
  cases cfg.ccAlg with
  | noWait => simp
  | dlDetect =>
    simp only [ne_eq, empty]
    by_cases none : q.waiters = [] <;> simp [none]
  | waitDie =>
    cases l.waitersHead with
    | none => cases RowLock.conflictLock (modeOf q.owners) type <;> simp
    | some en =>
      cases RowLock.conflictLock (modeOf q.owners) type with
      | true => simp
      | false =>
        simp [-txn_entry, -type_entry, request]

/-- What the call does to the lock, to the flag of the transaction and to the assertions. -/
structure GetSpec (l : RowLock τ) (lockReady : τ → Bool) (txn : τ) (bounds : Prop)
    (spec : RC × Queue τ) (res : RowLock.GetResult τ) : Prop where
  rc : res.rc = spec.1
  lock : Represents res.lock spec.2
  lockReady : res.lockReady = if spec.1 = .WAIT then Function.update lockReady txn false else lockReady
  asserts : l.asserts = true → bounds → res.lock.asserts = true

omit [DecidableEq τ] in
theorem Shape.waitsFor_eq {front : List Addr} (h : Shape l os (front ++ [new]) q) :
    l.waitsFor type =
      (front.reverse.filter (fun en => conflictLock type (l.request en).type) ++
        (if conflictLock type l.lockType then os else [])).map fun en => (l.request en).txn := by
  have back := h.lists.waiters.backward
  rw [List.reverse_append, List.reverse_singleton, List.singleton_append] at back
  have count := h.waiterCnt
  have waiters : walk l.prev l.waiterCnt (l.waitersTail.bind l.prev) = front.reverse := by
    rw [back.1]
    apply back.2.walk_eq
    rw [List.length_reverse, count, List.length_append]
    omega
  have owners : walk l.next l.ownerCnt l.owners = os :=
    h.lists.owners.walk_eq (Nat.le_of_eq h.ownerCnt.symm)
  unfold RowLock.waitsFor
  rw [waiters, owners]
  rfl

omit [DecidableEq τ] in
variable (type txn) in
/-- Under DL_DETECT the new entry is linked in behind all waiters. -/
theorem Shape.putTail (h : Shape l os ws q) (fresh : l.inUse new = false) :
    let l' := (l.getEntry new type txn).listPutTail new
    Shape { l' with waiterCnt := l'.waiterCnt + 1 } os (ws ++ [new])
        { q with waiters := q.waiters ++ [⟨txn, type⟩] } ∧
      l'.request new = ⟨txn, type⟩ ∧ (∀ en ∈ os ++ ws, l'.request en = l.request en) ∧
        l'.asserts = l.asserts := by
  obtain ⟨lists, atNew, others⟩ := h.getEntry type txn fresh
  have same := sameEntries_listPutTail (l.getEntry new type txn) new
  have linked := lists.listPutTail (by simpa using h.unused fresh)
  rw [← List.append_nil ws] at h
  have shape := h.wait fresh linked same
  rw [List.append_nil] at h
  rw [List.map_nil, h.waiters] at shape
  refine ⟨shape, (congrFun same.request new).trans atNew, fun en mem => ?_, same.asserts⟩
  exact (congrFun same.request en).trans (others en mem)

/-- The `txnids` that are returned have everyone with whom the new waiter conflicts. -/
theorem Shape.mem_txnids (h : Shape l os ws q) (lockReady : τ → Bool) (sound : q.Sound)
    (fresh : l.inUse new = false) {p : Request τ} (mem : p ∈ q.requests)
    (conflict : conflictLock p.type type = true) :
    p.txn ∈ (l.waitAtTail lockReady type txn new).txnids := by
  obtain ⟨shape, -, same, -⟩ := h.putTail type txn fresh
  change p.txn ∈ RowLock.waitsFor _ type
  rw [Shape.waitsFor_eq shape.check, List.map_append, List.mem_append]
  rcases List.mem_append.mp mem with owner | waiter
  · -- the owners have one mode, so the loop along them is not skipped
    right
    have mode : conflictLock type (modeOf q.owners) = true := by
      rw [← sound.type_eq owner, Queue.conflictLock_comm]
      exact conflict
    rw [← h.owners, List.mem_map] at owner
    obtain ⟨en, hen, rfl⟩ := owner
    apply List.mem_map.mpr
    refine ⟨en, ?_, congrArg Request.txn (same en (List.mem_append_left _ hen))⟩
    rw [if_pos (by exact (congrArg (conflictLock type) shape.lockType).trans mode)]
    exact hen
  · left
    rw [← h.waiters, List.mem_map] at waiter
    obtain ⟨en, hen, rfl⟩ := waiter
    have kept := same en (List.mem_append_right _ hen)
    apply List.mem_map.mpr
    refine ⟨en, List.mem_filter.mpr ⟨List.mem_reverse.mpr hen, ?_⟩, congrArg Request.txn kept⟩
    rw [Queue.conflictLock_comm] at conflict
    exact (congrArg (conflictLock type ·.type) kept).trans conflict

/-- They are not empty. -/
theorem Shape.txnids_ne_nil (h : Shape l os ws q) (lockReady : τ → Bool) (sound : q.Sound)
    (real : type ≠ .lockNone) (fresh : l.inUse new = false)
    (waits : q.blocks .dlDetect ts ⟨txn, type⟩) :
    (l.waitAtTail lockReady type txn new).txnids ≠ [] := by
  rcases sound.exists_conflict real waits with ⟨w, hw, conflict⟩ | ⟨some, conflict⟩
  · rw [Queue.conflictLock_comm] at conflict
    exact List.ne_nil_of_mem (h.mem_txnids lockReady sound fresh (List.mem_append_right _ hw) conflict)
  · obtain ⟨o, ho⟩ := List.exists_mem_of_ne_nil _ some
    rw [← sound.type_eq ho, Queue.conflictLock_comm] at conflict
    exact List.ne_nil_of_mem (h.mem_txnids lockReady sound fresh (List.mem_append_left _ ho) conflict)

theorem waitAtTail_spec {lockReady : τ → Bool} (h : Shape l os ws q) (sound : q.Sound)
    (real : type ≠ .lockNone) (fresh : l.inUse new = false)
    (waits : q.blocks .dlDetect ts ⟨txn, type⟩) :
    GetSpec l lockReady txn True (q.get .dlDetect ts ⟨txn, type⟩)
      (l.waitAtTail lockReady type txn new) := by
  obtain ⟨shape, atNew, -, asserts⟩ := h.putTail type txn fresh
  have spec : q.get .dlDetect ts ⟨txn, type⟩ =
      (.WAIT, { q with waiters := q.waiters ++ [⟨txn, type⟩] }) := if_pos waits
  rw [spec]
  refine ⟨rfl, ⟨os, ws ++ [new], shape.check.check⟩, rfl, fun holds _ => ?_⟩
  refine Bool.and_eq_true_iff.mpr
    ⟨Bool.and_eq_true_iff.mpr ⟨asserts.trans holds, ?_⟩, decide_eq_true ?_⟩
  · rw [shape.lists.waiters.tail_eq, List.getLast?_append_of_ne_nil _ (List.cons_ne_nil _ _)]
    exact decide_eq_true (congrArg Request.txn atNew)
  · exact List.length_pos_of_ne_nil (h.txnids_ne_nil lockReady sound real fresh waits)

theorem waitOrDie_spec {lockReady : τ → Bool} (h : Shape l os ws q)
    (fresh : l.inUse new = false) (waits : q.blocks .waitDie ts ⟨txn, type⟩) :
    GetSpec l lockReady txn True (q.get .waitDie ts ⟨txn, type⟩)
      (l.waitOrDie ts lockReady type txn new) := by
  obtain ⟨lists, atNew, others⟩ := h.getEntry type txn fresh
  have outside := h.unused fresh
  have owners := h.lists.owners.seek_eq (fun en => ts (l.entry en).txn < ts txn)
    (Nat.le_of_eq h.ownerCnt.symm)
  unfold RowLock.waitOrDie
  rw [owners]
  cases older : os.find? fun en => ts (l.entry en).txn < ts txn with
  -- an owner is older, and the transaction dies
  | some en =>
    have spec : q.get .waitDie ts ⟨txn, type⟩ = (.Abort, q) := by
      have mem := List.mem_map_of_mem (f := l.request) (List.mem_of_find?_eq_some older)
      rw [h.owners] at mem
      have lt := List.find?_some older
      exact (if_pos waits).trans (if_pos ⟨_, mem, of_decide_eq_true lt⟩)
    rw [spec]
    exact ⟨rfl, ⟨os, ws, h⟩, rfl, fun holds _ => holds⟩
  -- it waits before the first waiter that is not younger
  | none =>
    have spec : q.get .waitDie ts ⟨txn, type⟩ =
        (.WAIT, { q with waiters := Queue.enqueue ts ⟨txn, type⟩ q.waiters }) := by
      refine (if_pos waits).trans (if_neg ?_)
      rintro ⟨o, ho, lt⟩
      rw [← h.owners, List.mem_map] at ho
      obtain ⟨en, hen, rfl⟩ := ho
      exact List.find?_eq_none.mp older en hen (decide_eq_true lt)
    rw [spec]
    have position := lists.waiters.forward.seek_eq (n := (l.getEntry new type txn).waiterCnt)
      (fun en => ¬ ts txn < ts ((l.getEntry new type txn).entry en).txn)
      (Nat.le_of_eq h.waiterCnt.symm)
    have order (en) (mem : en ∈ ws) :
        ts ((l.getEntry new type txn).entry en).txn = ts (l.request en).txn :=
      congrArg (ts ·.txn) (others en (List.mem_append_right _ mem))
    dsimp only
    rw [position]
    cases found : ws.find? fun en => ¬ ts txn < ts ((l.getEntry new type txn).entry en).txn with
    | none =>
      -- All waiters are younger, and the transaction waits at the tail.
      rw [← List.append_nil ws] at h
      have same := sameEntries_listPutTail (l.getEntry new type txn) new
      have shape := h.wait fresh (lists.listPutTail outside) same
      have young : ∀ w ∈ q.waiters, ts txn < ts w.txn := by
        rw [← h.waiters, List.append_nil]
        rintro w hw
        obtain ⟨en, hen, rfl⟩ := List.mem_map.mp hw
        have := List.find?_eq_none.mp found en hen
        rw [order en hen] at this
        simpa using this
      have tail : Queue.enqueue ts ⟨txn, type⟩ (q.waiters ++ []) = q.waiters ++ [⟨txn, type⟩] :=
        Queue.enqueue_append young (by simp)
      rw [List.append_nil] at tail h
      rw [List.map_nil, h.waiters, ← tail] at shape
      refine ⟨rfl, ⟨os, ws ++ [new], shape⟩, rfl, fun holds _ => same.asserts.trans holds⟩
    | some en =>
      -- The waiters before `en` are younger, and `en` is not.
      obtain ⟨stops, front, back, split, skips⟩ := List.find?_eq_some_iff_append.mp found
      subst split
      have same := sameEntries_listInsertBefore (l.getEntry new type txn) en new
      have linked := lists.listInsertBefore outside
      have kept : ((l.getEntry new type txn).listInsertBefore en new).waitersHead =
          (l.getEntry new type txn).waitersHead := by
        unfold listInsertBefore
        dsimp only
        split <;> rfl
      have head := kept.trans lists.waiters.forward.head_eq
      have first : some en = (front ++ en :: back).head? ↔ front = [] :=
        head_eq_iff h.lists.waiters_nodup
      have young : ∀ w ∈ front.map l.request, ts txn < ts w.txn := by
        intro w hw
        obtain ⟨a, ha, rfl⟩ := List.mem_map.mp hw
        have := skips a ha
        rw [order a (List.mem_append_left _ ha)] at this
        simpa using this
      have old : ∀ w ∈ ((en :: back).map l.request).head?, ¬ ts txn < ts w.txn := by
        intro w hw
        cases hw
        rw [order en (by simp)] at stops
        simpa using stops
      have spot := Queue.enqueue_append (r := ⟨txn, type⟩) young old
      rw [← List.map_append, h.waiters] at spot
      rw [spot]
      -- The new entry becomes the head exactly when it is linked in at the front.
      have result : (if some en = ((l.getEntry new type txn).listInsertBefore en new).waitersHead then
            { (l.getEntry new type txn).listInsertBefore en new with waitersHead := some new }
          else (l.getEntry new type txn).listInsertBefore en new) =
          { (l.getEntry new type txn).listInsertBefore en new with
            waitersHead := if front = [] then some new else (l.getEntry new type txn).waitersHead } := by
        by_cases empty : front = []
        · rw [if_pos (head.symm ▸ first.mpr empty), if_pos empty]
        · rw [if_neg (head.symm ▸ mt first.mp empty), if_neg empty, ← kept]
      dsimp only
      rw [result]
      refine ⟨rfl, ⟨os, front ++ new :: en :: back, h.wait fresh linked ?_⟩, rfl, fun holds _ => ?_⟩
      · exact ⟨same.request, same.ownerCnt, same.waiterCnt, same.lockType, same.inUse, same.asserts⟩
      · exact same.asserts.trans holds

theorem joinOwners_spec {lockReady : τ → Bool} (h : Shape l os ws q)
    (fresh : l.inUse new = false) (free : ¬ q.blocks cfg.ccAlg ts ⟨txn, type⟩) :
    GetSpec l lockReady txn True (q.get cfg.ccAlg ts ⟨txn, type⟩)
      (l.joinOwners cfg lockReady type txn new) := by
  have spec : q.get cfg.ccAlg ts ⟨txn, type⟩ = (.RCOK, { q with owners := ⟨txn, type⟩ :: q.owners }) :=
    if_neg free
  rw [spec]
  refine ⟨rfl, ⟨new :: os, ws, (h.own fresh).check⟩, rfl, fun holds _ => ?_⟩
  have nobody (dl : cfg.ccAlg = .dlDetect) : l.waitersHead = none := by
    by_contra some
    refine free (.inr (.inr ⟨dl, fun none => some ?_⟩))
    rw [h.lists.waiters.forward.head_eq, List.head?_eq_none_iff, ← List.map_eq_nil_iff, h.waiters, none]
  exact Bool.and_eq_true_iff.mpr ⟨holds, decide_eq_true nobody⟩

variable (cfg ts txn) in
theorem lockGet_spec (lockReady : τ → Bool) (h : Represents l q) (sound : q.Sound)
    (real : type ≠ .lockNone) (fresh : l.inUse new = false) :
    GetSpec l lockReady txn (l.ownerCnt ≤ cfg.gThreadCnt ∧ l.waiterCnt < cfg.gThreadCnt)
      (q.get cfg.ccAlg ts ⟨txn, type⟩) (l.lockGet cfg ts lockReady type txn new) := by
  obtain ⟨os, ws, shape⟩ := h
  -- The assertion at the start changes nothing else.
  have checked := shape.check (b := l.ownerCnt ≤ cfg.gThreadCnt ∧ l.waiterCnt < cfg.gThreadCnt)
  have conflicts := checked.conflict_iff type txn cfg ts
  have first (holds : l.asserts = true) (bounds : l.ownerCnt ≤ cfg.gThreadCnt ∧ l.waiterCnt < cfg.gThreadCnt) :
      (l.check (l.ownerCnt ≤ cfg.gThreadCnt ∧ l.waiterCnt < cfg.gThreadCnt)).asserts = true :=
    Bool.and_eq_true_iff.mpr ⟨holds, decide_eq_true bounds⟩
  -- so what the branches do from the checked lock they do from the lock
  have lift {spec : RC × Queue τ} {res : RowLock.GetResult τ}
      (h : GetSpec (l.check (l.ownerCnt ≤ cfg.gThreadCnt ∧ l.waiterCnt < cfg.gThreadCnt)) lockReady txn
        True spec res) :
      GetSpec l lockReady txn (l.ownerCnt ≤ cfg.gThreadCnt ∧ l.waiterCnt < cfg.gThreadCnt) spec res :=
    ⟨h.rc, h.lock, h.lockReady, fun holds bounds => h.asserts (first holds bounds) trivial⟩
  unfold RowLock.lockGet
  dsimp only
  apply lift
  -- the lock sees the same conflicts as the queue
  by_cases waits : q.blocks cfg.ccAlg ts ⟨txn, type⟩
  · rw [if_pos (conflicts.mpr waits)]
    cases alg : cfg.ccAlg with
    | noWait =>
      rw [alg] at waits
      rw [show q.get .noWait ts ⟨txn, type⟩ = (.Abort, q) from if_pos waits]
      exact ⟨rfl, ⟨os, ws, checked⟩, rfl, fun holds _ => holds⟩
    | dlDetect =>
      rw [alg] at waits
      exact waitAtTail_spec checked sound real fresh waits
    | waitDie =>
      rw [alg] at waits
      exact waitOrDie_spec checked fresh waits
  · rw [if_neg fun e => waits (conflicts.mp e)]
    exact joinOwners_spec checked fresh waits

end Get

/-! ### `lock_release` -/

section Release

variable {l : RowLock τ} {os ws front back : List Addr} {q : Queue τ} {en : Addr}

/-- Without the entry that `return_entry` frees, the lists have exactly the entries in use. -/
theorem inUse_returnEntry {used : Addr → Bool} {all all' : List Addr}
    (h : ∀ a, used a = true ↔ a ∈ all) (perm : all.Perm (en :: all')) (nodup : all.Nodup) (a : Addr) :
    Function.update used en false a = true ↔ a ∈ all' := by
  have outside : en ∉ all' := (List.nodup_cons.mp (perm.nodup_iff.mp nodup)).1
  rw [Function.update_apply]
  split
  · next e =>
    subst e
    simpa using outside
  · next ne =>
    rw [h a, perm.mem_iff, List.mem_cons]
    simp [ne]

theorem Shape.removeOwner (h : Shape l (front ++ en :: back) ws q) (consistent : q.Consistent) :
    Shape (l.removeOwner front.getLast? en) (front ++ back) ws
        ⟨(front ++ back).map l.request, q.waiters⟩ ∧
      (l.removeOwner front.getLast? en).asserts = l.asserts := by
  have lists := h.lists.unlinkOwner
  have perm : (front ++ en :: back ++ ws).Perm (en :: (front ++ back ++ ws)) :=
    List.perm_middle.append_right ws
  have used := inUse_returnEntry h.inUse perm h.lists.nodup
  have count : l.ownerCnt - 1 = (front ++ back).length := by
    rw [h.ownerCnt]
    simp only [List.length_append, List.length_cons]
    omega
  have same := sameEntries_unlinkOwner l en front.getLast?
  -- the mode is cleared with the last owner, and is that of the others before
  have mode : (if l.ownerCnt - 1 = 0 then LockType.lockNone else l.lockType) =
      modeOf ((front ++ back).map l.request) := by
    rw [count]
    cases cells : front ++ back with
    | nil => rfl
    | cons a rest =>
      have mem : l.request a ∈ q.owners := by
        rw [← h.owners]
        refine List.mem_map_of_mem ?_
        have : a ∈ front ++ back := by simp [cells]
        simp only [List.mem_append, List.mem_cons] at this ⊢
        tauto
      exact h.lockType.trans (consistent.type_eq mem).symm
  unfold RowLock.removeOwner
  dsimp only
  generalize l.unlinkOwner front.getLast? en = l' at lists same ⊢
  -- the branches differ in the mode alone
  have shape (lt : LockType) (e : lt = modeOf ((front ++ back).map l.request)) :
      Shape { l'.returnEntry en with ownerCnt := l'.ownerCnt - 1, lockType := lt } (front ++ back) ws
        ⟨(front ++ back).map l.request, q.waiters⟩ := by
    constructor
    case lists => exact lists.congr (fun _ _ => rfl) (fun _ _ => rfl) rfl rfl rfl
    case owners => exact congrArg (List.map · (front ++ back)) same.request
    case waiters => exact (congrArg (List.map · ws) same.request).trans h.waiters
    case inUse =>
      intro a
      rw [← used a, ← same.inUse]
      rfl
    case ownerCnt => rw [← count, ← same.ownerCnt]
    case waiterCnt => exact same.waiterCnt.trans h.waiterCnt
    case lockType => exact e
  rw [← same.ownerCnt, ← same.lockType] at mode
  by_cases zero : l'.ownerCnt - 1 = 0
  · rw [if_pos zero] at mode
    rw [if_pos (show (l'.returnEntry en).ownerCnt - 1 = 0 from zero)]
    exact ⟨shape _ mode, same.asserts⟩
  · rw [if_neg zero] at mode
    rw [if_neg (show ¬ (l'.returnEntry en).ownerCnt - 1 = 0 from zero)]
    exact ⟨shape _ mode, same.asserts⟩

theorem Shape.removeWaiter (h : Shape l os (front ++ en :: back) q) :
    Shape (l.removeWaiter en) os (front ++ back) ⟨q.owners, (front ++ back).map l.request⟩ ∧
      (l.removeWaiter en).asserts = l.asserts := by
  have lists := h.lists.listRemove
  have same := sameEntries_listRemove l en
  have nodup := h.lists.waiters_nodup
  have perm : (os ++ (front ++ en :: back)).Perm (en :: (os ++ (front ++ back))) :=
    (List.perm_middle.append_left os).trans List.perm_middle
  have used := inUse_returnEntry h.inUse perm h.lists.nodup
  have count : l.waiterCnt - 1 = (front ++ back).length := by
    rw [h.waiterCnt]
    simp only [List.length_append, List.length_cons]
    omega
  -- `LIST_REMOVE` leaves the pointers of the removed entry and those to the ends.
  have notSelf (front back : List Addr) (nodup : (front ++ en :: back).Nodup) :
      front.getLast? ≠ some en := by
    intro e
    exact (List.nodup_append.mp nodup).2.2 en (List.mem_of_getLast? e) en (by simp) rfl
  have next : (l.listRemove en).next en = l.next en := by
    rw [next_listRemove, if_neg (h.lists.waiters.prev_eq ▸ notSelf front back nodup)]
  have prev : (l.listRemove en).prev en = l.prev en := by
    rw [prev_listRemove, if_neg]
    rw [h.lists.waiters.forward.next_eq, ← List.getLast?_reverse]
    refine notSelf back.reverse front.reverse ?_
    have := List.nodup_reverse.mpr nodup
    rwa [List.reverse_append, List.reverse_cons, List.append_assoc] at this
  have head : (l.listRemove en).waitersHead = (front ++ en :: back).head? := by
    rw [← h.lists.waiters.forward.head_eq]
    unfold listRemove
    dsimp only
    split <;> split <;> rfl
  have tail : (l.listRemove en).waitersTail = (front ++ en :: back).getLast? := by
    rw [← h.lists.waiters.tail_eq]
    unfold listRemove
    dsimp only
    split <;> split <;> rfl
  -- the ends are moved where the entry stood at one
  have heads : (if some en = (l.listRemove en).waitersHead then l.next en
      else (l.listRemove en).waitersHead) = if front = [] then l.next en else l.waitersHead := by
    rw [head, ← h.lists.waiters.forward.head_eq]
    simp only [h.lists.waiters.forward.head_eq, head_eq_iff nodup]
  have tails : (if some en = (l.listRemove en).waitersTail then l.prev en
      else (l.listRemove en).waitersTail) = if back = [] then l.prev en else l.waitersTail := by
    rw [tail, ← h.lists.waiters.tail_eq]
    simp only [h.lists.waiters.tail_eq, getLast_eq_iff nodup]
  have result : l.removeWaiter en =
      { { l.listRemove en with
          waitersHead := if front = [] then l.next en else l.waitersHead
          waitersTail := if back = [] then l.prev en else l.waitersTail }.returnEntry en with
        waiterCnt := l.waiterCnt - 1 } := by
    rw [← heads, ← tails, ← next, ← prev, ← same.waiterCnt]
    rfl
  rw [result]
  refine ⟨⟨lists.congr (fun _ _ => rfl) (fun _ _ => rfl) rfl rfl rfl, ?_, ?_, fun a => ?_, ?_, ?_, ?_⟩,
    same.asserts⟩
  · exact (congrArg (List.map · os) same.request).trans h.owners
  · exact congrArg (List.map · (front ++ back)) same.request
  · rw [← used a, ← same.inUse]
    rfl
  · exact same.ownerCnt.trans h.ownerCnt
  · exact count
  · exact same.lockType.trans h.lockType

variable [DecidableEq τ] {t : τ}

theorem eraseP_append {r : Request τ} {front back : List (Request τ)} (mine : r.txn = t)
    (others : ∀ p ∈ front, p.txn ≠ t) :
    (front ++ r :: back).eraseP (·.txn = t) = front ++ back := by
  rw [List.eraseP_append_right _ (by simpa using others), List.eraseP_cons_of_pos (by simpa using mine)]

/-- The first entry of the transaction in a list that has one. -/
theorem exists_first {cells : List Addr} {rs : List (Request τ)} (e : cells.map l.request = rs)
    (mem : ∃ r ∈ rs, r.txn = t) :
    ∃ en front back, cells = front ++ en :: back ∧ (l.request en).txn = t ∧
      ∀ a ∈ front, (l.request a).txn ≠ t := by
  obtain ⟨r, hr, mine⟩ := mem
  rw [← e, List.mem_map] at hr
  obtain ⟨a, ha, rfl⟩ := hr
  obtain ⟨en, found⟩ := Option.isSome_iff_exists.mp
    (List.find?_isSome (p := fun en => decide ((l.request en).txn = t)).mpr
      ⟨a, ha, decide_eq_true mine⟩)
  obtain ⟨mine, front, back, split, others⟩ := List.find?_eq_some_iff_append.mp found
  exact ⟨en, front, back, split, of_decide_eq_true mine, fun b hb => by simpa using others b hb⟩

theorem Shape.removeEntry (h : Shape l os ws q) (consistent : q.Consistent)
    (mem : ∃ r ∈ q.requests, r.txn = t) :
    Represents (l.removeEntry t) (q.remove t) ∧ (l.removeEntry t).asserts = l.asserts := by
  unfold RowLock.removeEntry Queue.remove
  dsimp only
  by_cases owner : ∃ o ∈ q.owners, o.txn = t
  · rw [if_pos owner]
    obtain ⟨en, front, back, rfl, mine, others⟩ := exists_first h.owners owner
    have found := h.lists.owners.seekWithPrev_eq (n := l.ownerCnt)
      (fun en => decide ((l.entry en).txn = t)) none
      (by rw [h.ownerCnt, List.length_append, List.length_cons]; omega)
      (fun a ha => decide_eq_false (others a ha)) (decide_eq_true mine)
    rw [Option.or_none] at found
    rw [found]
    -- the first owner of that transaction leaves
    have erased : q.owners.eraseP (·.txn = t) = (front ++ back).map l.request := by
      rw [← h.owners, List.map_append, List.map_cons, List.map_append]
      refine eraseP_append mine fun p hp => ?_
      obtain ⟨a, ha, rfl⟩ := List.mem_map.mp hp
      exact others a ha
    obtain ⟨shape, asserts⟩ := h.removeOwner consistent
    rw [erased]
    exact ⟨⟨_, _, shape⟩, asserts⟩
  · rw [if_neg owner]
    -- it is no owner, so it is the first waiter
    have absent := h.lists.owners.seekWithPrev_none (n := l.ownerCnt)
      (fun en => decide ((l.entry en).txn = t)) none fun a ha => by
        refine decide_eq_false fun e => owner ⟨l.request a, ?_, e⟩
        rw [← h.owners]
        exact List.mem_map_of_mem ha
    have waiter : ∃ w ∈ q.waiters, w.txn = t := by
      obtain ⟨r, hr, e⟩ := mem
      rcases List.mem_append.mp hr with hr | hr
      · exact absurd ⟨r, hr, e⟩ owner
      · exact ⟨r, hr, e⟩
    obtain ⟨en, front, back, rfl, mine, others⟩ := exists_first h.waiters waiter
    have found : seek l.next (fun en => decide ((l.entry en).txn = t)) l.waiterCnt l.waitersHead =
        some en := by
      rw [h.lists.waiters.forward.seek_eq _ (Nat.le_of_eq h.waiterCnt.symm)]
      exact List.find?_eq_some_iff_append.mpr ⟨decide_eq_true mine, front, back, rfl,
        fun a ha => congrArg (!·) (decide_eq_false (others a ha))⟩
    have erased : q.waiters.eraseP (·.txn = t) = (front ++ back).map l.request := by
      rw [← h.waiters, List.map_append, List.map_cons, List.map_append]
      refine eraseP_append mine fun p hp => ?_
      obtain ⟨a, ha, rfl⟩ := List.mem_map.mp hp
      exact others a ha
    obtain ⟨shape, asserts⟩ := h.removeWaiter
    generalize seekWithPrev l.next (fun en => decide ((l.entry en).txn = t)) l.ownerCnt none l.owners
      = pair at absent
    obtain ⟨prev, en'⟩ := pair
    cases absent
    rw [erased]
    dsimp only
    rw [found]
    exact ⟨⟨_, _, shape⟩, asserts⟩

/-- One waiter joins the owners. -/
theorem Shape.grantHead {lockReady : τ → Bool} (h : Shape l os (en :: ws) q)
    (asleep : lockReady (l.request en).txn = false) :
    Shape (l.grantHead lockReady en).1 (en :: os) ws ⟨l.request en :: q.owners, ws.map l.request⟩ ∧
      (l.grantHead lockReady en).1.asserts = l.asserts ∧
      (l.grantHead lockReady en).2 = Function.update lockReady (l.request en).txn true := by
  have outside : en ∉ os ++ ws :=
    (List.nodup_cons.mp (List.perm_middle.nodup_iff.mp h.lists.nodup)).1
  have lists := (h.lists.listGetHead).stackPush outside
  -- the entry moves from the head of the waiters to the owners
  have popped := sameEntries_listGetHead l en
  have pushed := sameEntries_stackPush (l.listGetHead en) en
  have same := popped.trans pushed
  have mine : ((l.listGetHead en).stackPush en).request en = l.request en := congrFun same.request en
  refine ⟨⟨lists.congr (fun _ _ => rfl) (fun _ _ => rfl) rfl rfl rfl, ?_, ?_, fun a => ?_, ?_, ?_, ?_⟩,
    ?_, ?_⟩
  · rw [← h.owners, ← List.map_cons]
    exact congrArg (List.map · (en :: os)) same.request
  · exact congrArg (List.map · ws) same.request
  · have before := h.inUse a
    simp only [List.mem_append, List.mem_cons] at before ⊢
    rw [show (l.grantHead lockReady en).1.inUse = l.inUse from same.inUse, before]
    tauto
  · rw [List.length_cons, ← h.ownerCnt, ← same.ownerCnt]
    rfl
  · have count : l.waiterCnt = ws.length + 1 := h.waiterCnt
    have := same.waiterCnt
    change ((l.listGetHead en).stackPush en).waiterCnt - 1 = ws.length
    omega
  · exact congrArg Request.type mine
  · refine (Bool.and_eq_left_iff_imp.mpr fun _ => decide_eq_true ?_).trans same.asserts
    exact (congrArg (lockReady ·.txn) mine).trans asleep
  · exact congrArg (fun r : Request τ => Function.update lockReady r.txn true) mine

/-- The loop grants the waiters that the queue grants, and raises their flags. -/
theorem grant_spec {n : Nat} {lockReady : τ → Bool} (h : Shape l os ws q) (consistent : q.Consistent)
    (enough : ws.length ≤ n) (asleep : ∀ w ∈ q.waiters, lockReady w.txn = false) :
    Represents (RowLock.grant n l lockReady).1 q.grant ∧
      (RowLock.grant n l lockReady).1.asserts = l.asserts ∧
      ∀ u, (RowLock.grant n l lockReady).2 u = true ↔
        lockReady u = true ∨ ∃ w ∈ Queue.granted (modeOf q.owners) q.waiters, w.txn = u := by
  -- the fuel is the number of waiters, and each round grants one
  induction n generalizing l os ws q lockReady with
  | zero =>
    have none : ws = [] := List.length_eq_zero_iff.mp (Nat.le_zero.mp enough)
    subst none
    have nobody : q.waiters = [] := h.waiters.symm
    have blocked : q.Blocked := by simp [Queue.Blocked, nobody]
    rw [Queue.grant_of_blocked blocked, nobody]
    exact ⟨⟨os, [], h⟩, rfl, fun u => by simp [RowLock.grant, Queue.granted]⟩
  | succ n ih =>
    obtain ⟨owners, waiters⟩ := q
    cases ws with
    | nil =>
      have head : l.waitersHead = none := h.lists.waiters.forward.head_eq
      have nobody : waiters = [] := h.waiters.symm
      subst nobody
      have stop : RowLock.grant (n + 1) l lockReady = (l, lockReady) := by
        rw [RowLock.grant, head]
      rw [stop, Queue.grant_of_blocked (by simp [Queue.Blocked])]
      exact ⟨⟨os, [], h⟩, rfl, fun u => by simp [Queue.granted]⟩
    | cons en ws =>
      have head : l.waitersHead = some en := h.lists.waiters.forward.head_eq
      have first : waiters = l.request en :: ws.map l.request := h.waiters.symm
      subst first
      cases free : conflictLock (modeOf owners) (l.request en).type with
      -- the head conflicts, so the loop ends
      | true =>
        have stop : RowLock.grant (n + 1) l lockReady = (l, lockReady) := by
          rw [RowLock.grant, head]
          exact if_pos ((congrArg (conflictLock · _) h.lockType).trans free)
        rw [stop, Queue.grant_of_blocked (by simpa [Queue.Blocked] using free)]
        exact ⟨⟨os, en :: ws, h⟩, rfl, fun u => by simp [Queue.granted, free]⟩
      | false =>
        have distinct := consistent.distinct
        rw [Queue.requests, List.map_append, List.nodup_append] at distinct
        obtain ⟨apart, -⟩ := List.nodup_cons.mp distinct.2.1
        obtain ⟨shape, asserts, flags⟩ := h.grantHead (asleep _ List.mem_cons_self)
        have step : RowLock.grant (n + 1) l lockReady =
            RowLock.grant n (l.grantHead lockReady en).1 (l.grantHead lockReady en).2 := by
          rw [RowLock.grant, head]
          refine if_neg fun conflict => ?_
          have := (congrArg (conflictLock · _) h.lockType).symm.trans conflict
          exact Bool.noConfusion (free.symm.trans this)
        -- the flags of the waiters behind are still down
        have others : ∀ w ∈ ws.map l.request, (l.grantHead lockReady en).2 w.txn = false := by
          intro w hw
          rw [flags, Function.update_of_ne]
          · exact asleep w (List.mem_cons_of_mem _ hw)
          · intro e
            exact apart (List.mem_map.mpr ⟨w, hw, e⟩)
        have rest := ih shape (Queue.consistent_move consistent free) (by simpa using enough) others
        rw [step, Queue.grant_cons free]
        refine ⟨rest.1, rest.2.1.trans asserts, fun u => (rest.2.2 u).trans ?_⟩
        rw [flags, Function.update_apply]
        have granted : Queue.granted (modeOf owners) (l.request en :: ws.map l.request) =
            l.request en :: Queue.granted (l.request en).type (ws.map l.request) := by
          simp [Queue.granted, free]
        rw [granted, modeOf_cons]
        simp only [List.mem_cons, exists_eq_or_imp]
        split
        · next e => simp [e]
        · next e => simp [Ne.symm e]

theorem lockRelease_spec {lockReady : τ → Bool} (h : Represents l q) (consistent : q.Consistent)
    (mem : ∃ r ∈ q.requests, r.txn = t)
    (asleep : ∀ w ∈ q.waiters, lockReady w.txn = false) :
    Represents (l.lockRelease lockReady t).1 (q.release t) ∧
      (l.lockRelease lockReady t).1.asserts = l.asserts ∧
      ∀ u, (l.lockRelease lockReady t).2 u = true ↔
        lockReady u = true ∨
          ∃ w ∈ Queue.granted (modeOf (q.remove t).owners) (q.remove t).waiters, w.txn = u := by
  obtain ⟨os, ws, shape⟩ := h
  obtain ⟨⟨os', ws', removed⟩, asserts⟩ := shape.removeEntry consistent mem
  have removedConsistent : (q.remove t).Consistent := consistent.remove
  -- Without owners the mode is `LOCK_NONE`, so the assertion before the loop holds.
  have mode : decide ((l.removeEntry t).ownerCnt = 0 → (l.removeEntry t).lockType = .lockNone) = true := by
    refine decide_eq_true fun zero => ?_
    have none : os' = [] := List.length_eq_zero_iff.mp (removed.ownerCnt ▸ zero)
    rw [removed.lockType, ← removed.owners, none]
    rfl
  have less : ∀ w ∈ (q.remove t).waiters, lockReady w.txn = false := by
    intro w hw
    refine asleep w ?_
    unfold Queue.remove at hw
    split at hw
    · exact hw
    · exact List.mem_of_mem_eraseP hw
  obtain ⟨⟨os'', ws'', granted⟩, kept, flags⟩ := grant_spec removed.check removedConsistent
    (Nat.le_of_eq removed.waiterCnt.symm) less
  -- The last assertion compares the list of the owners with its counter.
  have last (g : RowLock τ) (h : Shape g os'' ws'' (q.release t)) :
      decide (g.owners = none ↔ g.ownerCnt = 0) = true := by
    refine decide_eq_true ?_
    rw [h.lists.owners.head_eq, h.ownerCnt, List.head?_eq_none_iff, List.length_eq_zero_iff]
  refine ⟨⟨os'', ws'', granted.check⟩, ?_, flags⟩
  refine (Bool.and_eq_left_iff_imp.mpr fun _ => last _ granted).trans (kept.trans ?_)
  exact (Bool.and_eq_left_iff_imp.mpr fun _ => mode).trans asserts

end Release

end DBx1000.Locking
