import DBx1000.Bskiplist.Delete
import DBx1000.Bskiplist.Scan

/-!
# Runs of calls

A list from `bsl_new` and any sequence of calls on it, one after another: each call returns what
the store says, and the list is well formed after it.

## Main result

`session_refines`: any sequence of calls returns what the store says. `session_first`: every call is
done at its first attempt. `session_scan_stuck`: but a scan from `KEY_MAX` never comes back.

## Proof strategy

Each operation has its lemma about one call on a list that stands for a store; `Request.run_ends`
collects them, and a run is an induction on the requests.
-/

namespace DBx1000.Bskiplist

open Program Hocc

variable {m : Mem} {list : Bsl} {fuel : Nat}

/-! ### A new list -/

/-- The sentinels of the levels that are there: one key each, and the sentinel below as child. -/
structure Built (headers : List Addr) (m : Mem) : Prop where
  held : ∀ (l : Nat) (_ : l < headers.length),
    (Cell.mk (headers.getD l null)
      [(keyMin, if l = 0 then 0 else headers.getD (l - 1) null)]).Held m.node l (keyMax, null)
  known : ∀ n ∈ headers, n ≠ null ∧ n < m.fresh
  idle : ∀ n ∈ headers, Idle (m.ctrl n)

theorem getD_mem {headers : List Addr} {l : Nat} (lt : l < headers.length) :
    headers.getD l null ∈ headers := by
  rw [List.getD_eq_getElem _ _ lt]
  exact List.getElem_mem lt

/-- A sentinel with this child, or with none on the leaf level. -/
theorem Built.snoc {headers : List Addr} {t : Mem} (built : Built headers m) (pos : m.fresh ≠ null)
    (node : ∀ n, n ≠ m.fresh → t.node n = m.node n) (ctrl : ∀ n, n ≠ m.fresh → t.ctrl n = m.ctrl n)
    (idle : Idle (t.ctrl m.fresh)) (fresh : t.fresh = m.fresh + 1)
    (new : (Cell.mk m.fresh [(keyMin, if headers.length = 0 then 0 else
      headers.getD (headers.length - 1) null)]).Held t.node headers.length (keyMax, null)) :
    Built (headers ++ [m.fresh]) t where
  held l lt := by
    rw [List.length_append, List.length_singleton] at lt
    rcases Nat.lt_succ_iff_lt_or_eq.mp lt with before | rfl
    · have old := built.held l before
      -- the nodes before the new one are not stored to
      have other : headers.getD l null ≠ m.fresh := Nat.ne_of_lt (built.known _ (getD_mem before)).2
      rw [List.getD_append _ _ _ _ before, List.getD_append _ _ _ _ (by omega)]
      exact old.congr (node _ other)
    · -- the new node, which is the sentinel of the next level
      rw [List.getD_append_right _ _ _ _ (Nat.le_refl _), Nat.sub_self, List.getD_cons_zero]
      rcases Nat.eq_zero_or_pos headers.length with zero | some
      · rw [if_pos zero] at new ⊢
        exact new
      · rw [if_neg (Nat.ne_of_gt some)] at new ⊢
        rw [List.getD_append _ _ _ _ (by omega)]
        exact new
  known n mem := by
    rw [fresh]
    rcases List.mem_append.mp mem with mem | mem
    · exact ⟨(built.known n mem).1, Nat.lt_succ_of_lt (built.known n mem).2⟩
    · rw [List.mem_singleton.mp mem]
      exact ⟨pos, Nat.lt_succ_self _⟩
  idle n mem := by
    rcases List.mem_append.mp mem with mem | mem
    · rw [ctrl n (Nat.ne_of_lt (built.known n mem).2)]
      exact built.idle n mem
    · rw [List.mem_singleton.mp mem]
      exact idle

/-- `bsl_new` makes the sentinels of the levels, from the leaves up. -/
theorem newLevels_ends {levels : Nat} {headers : List Addr} {Q : List Addr → Mem → Prop}
    (built : Built headers m) (pos : m.fresh ≠ null)
    (goal : ∀ hs t, hs.length = headers.length + levels → Built hs t →
      t.itemNext = m.itemNext → t.output = m.output → Q hs t) :
    (newLevels levels headers).Ends exec Q m := by
  induction levels generalizing m headers with
  | zero => exact goal headers m rfl built rfl rfl
  | succ levels ih =>
    have inside : 0 < capacity := by decide
    -- the rest of the loop, from any memory in which the sentinel is complete
    have next : ∀ t, (∀ n, n ≠ m.fresh → t.node n = m.node n) →
        (∀ n, n ≠ m.fresh → t.ctrl n = m.ctrl n) → Idle (t.ctrl m.fresh) →
        t.fresh = m.fresh + 1 → t.itemNext = m.itemNext → t.output = m.output →
        (Cell.mk m.fresh [(keyMin, if headers.length = 0 then 0 else
          headers.getD (headers.length - 1) null)]).Held t.node headers.length (keyMax, null) →
        (newLevels levels (headers ++ [m.fresh])).Ends exec Q t := by
      intro t node ctrl idle fresh items output new
      apply ih (built.snoc pos node ctrl idle fresh new)
      · rw [fresh]
        exact Nat.succ_ne_zero _
      · intro hs t' len built' items' output'
        refine goal hs t' ?_ built' (items'.trans items) (output'.trans output)
        rw [len, List.length_append, List.length_singleton]
        omega
    have stored {d : Node} {f : Node → Node} {b : Mem} {Q : Unit → Mem → Prop} :
        (storeNode m.fresh f).Ends exec Q (b.setNode m.fresh d) ↔
          Q () (b.setNode m.fresh (f d)) := by
      rw [ends_storeNode, Mem.setNode_node, Function.update_self, Mem.setNode_setNode]
    -- the memory after `node_alloc`
    obtain ⟨b, eqB⟩ : ∃ b : Mem, b = { m.setCtrl m.fresh hoccInit with fresh := m.fresh + 1 } :=
      ⟨_, rfl⟩
    -- the new sentinel, whatever its child is
    have sentinel : ∀ d : Node, d.Elems [(keyMin, if headers.length = 0 then 0 else
        headers.getD (headers.length - 1) null)] → d.level = headers.length →
        d.nextHeader = keyMax → d.next = null →
        (newLevels levels (headers ++ [m.fresh])).Ends exec Q (b.setNode m.fresh d) := by
      intro d elems level header link
      apply next
      · intro n ne
        rw [Mem.setNode_node, Function.update_of_ne ne, eqB]
        rfl
      · intro n ne
        rw [Mem.setNode_ctrl, eqB]
        exact Function.update_of_ne ne ..
      · rw [Mem.setNode_ctrl, eqB]
        change Idle (Function.update m.ctrl m.fresh hoccInit m.fresh)
        rw [Function.update_self]
        exact idle_hoccInit
      · rw [eqB]
        rfl
      · rw [eqB]
        rfl
      · rw [eqB]
        rfl
      · generalize made : b.setNode m.fresh d = t
        have here : t.node m.fresh = d := by
          rw [← made, Mem.setNode_node, Function.update_self]
        exact ⟨here ▸ elems, here ▸ level, here ▸ header, here ▸ link, by simp, inside⟩
    -- without a child the slot stays zero
    have zero : Node.Elems { Node.zero with
        next := null, nextHeader := keyMax, numElts := 1, level := headers.length,
        keys := Function.update Node.zero.keys 0 keyMin } [(keyMin, 0)] := by
      refine ⟨rfl, fun i lt => ?_, fun i lt => ?_⟩
      · obtain rfl : i = 0 := by simpa using lt
        rfl
      · obtain rfl : i = 0 := by simpa using lt
        rfl
    rw [newLevels, Prog.ends_bind, ends_nodeAlloc]
    change Prog.Ends exec _ Q (Mem.setNode { m.setCtrl m.fresh hoccInit with fresh := m.fresh + 1 }
      m.fresh Node.zero)
    rw [← eqB]
    unfold storeLevel storeNumElts storeNext storeNextHeader storeKey storeSlot
    rw [Prog.ends_bind, stored, Prog.ends_bind, stored, Prog.ends_bind, stored, Prog.ends_bind,
      stored, Prog.ends_bind, Prog.ends_bind, Prog.ends_assert]
    refine ⟨inside, ?_⟩
    rw [stored]
    dsimp only
    split
    · -- above the leaves the slot is the sentinel below
      next above =>
      rw [Prog.ends_bind, Prog.ends_bind, Prog.ends_assert]
      refine ⟨inside, ?_⟩
      rw [stored]
      apply sentinel
      · rw [if_neg (Nat.ne_of_gt above)]
        exact zero.setSlot (u := [])
      · rfl
      · rfl
      · rfl
    · next leaf =>
      apply sentinel
      · rw [if_pos (Nat.eq_zero_of_not_pos leaf)]
        exact zero
      · rfl
      · rfl
      · rfl

/-- A new list is well formed and empty. -/
theorem bslNew_ends (pos : m.fresh ≠ null) :
    bslNew.Ends exec (fun list t => Represents list ⟨[], m.itemNext, m.output.flatten⟩ t) m := by
  rw [bslNew, Prog.ends_bind]
  have none : Built [] m :=
    ⟨fun l lt => absurd lt (Nat.not_lt_zero l), fun n mem => absurd mem List.not_mem_nil,
      fun n mem => absurd mem List.not_mem_nil⟩
  apply newLevels_ends none pos
  intro hs t len built items output
  rw [List.length_nil, Nat.zero_add] at len
  -- each level is its sentinel, with the one below as its child
  refine ⟨⟨fun l => [⟨hs.getD l null, [(keyMin, if l = 0 then 0 else hs.getD (l - 1) null)]⟩],
    ⟨⟨fun l lt => rfl, ?_, ?_, ?_⟩, fun l lt => ?_⟩, rfl⟩, items, congrArg List.flatten output⟩
  · intro e he
    rw [List.mem_singleton.mp he]
    exact (by decide : keyMin < keyMax)
  · intro l lt e he
    rw [List.mem_singleton.mp he, if_neg (Nat.succ_ne_zero l)]
    exact List.mem_singleton_self _
  · -- only the smallest key stands on a level
    intro l lt k
    constructor
    · intro mem
      rw [show k = keyMin from List.mem_singleton.mp mem]
      exact ⟨List.mem_singleton_self _, .inl rfl⟩
    · rintro ⟨mem, -⟩
      rw [show k = keyMin from List.mem_singleton.mp mem]
      exact List.mem_singleton_self _
  · have inside : hs.getD l null ∈ hs := getD_mem (len ▸ lt)
    refine ⟨⟨built.held l (len ▸ lt), trivial⟩, List.pairwise_singleton _ _, fun c hc => ?_,
      fun c hc => ?_⟩
    · rw [List.mem_singleton.mp hc]
      exact built.known _ inside
    · rw [List.mem_singleton.mp hc]
      exact built.idle _ inside

/-! ### Calls one after another -/

/-- The call of a program for a request. -/
def Request.run (fuel : Nat) (list : Bsl) : Request → Prog Answer
  | .insert key value => do return .code (← bslInsert fuel list key value)
  | .delete key => do return .code (← bslDelete fuel list key)
  | .get key => do return .value (← bslGet fuel list key)
  | .scan start length => do
    bslScanN fuel list start length
    return .done
  | .scanBatch start length => do
    bslScanNBatch fuel list start length
    return .done

def session (fuel : Nat) (list : Bsl) : List Request → Prog (List Answer)
  | [] => pure []
  | r :: rs => do
    let answer ← r.run fuel list
    let answers ← session fuel list rs
    return answer :: answers

/-- A scan starts below `KEY_MAX`. -/
def Request.Allowed : Request → Prop
  | .scan start length | .scanBatch start length => start < keyMax ∨ length = 0
  | _ => True

/-- The call is not sent back to `top_retry`: its first attempt is the last one. -/
def Request.first (fuel : Nat) (list : Bsl) : Request → Prog Bool
  | .insert key value =>
    if Proper key then do
      let newNodes ← allocNodes fuel (levelForKey key)
      return (← insertOnce fuel list key value newNodes).isSome
    else pure true
  | .delete key => if Proper key then do return (← deleteOnce fuel list key).isSome else pure true
  | .get key => if Proper key then do return (← getTraversal fuel list key).isSome else pure true
  | .scan start length =>
    if length = 0 then pure true else do
      return (← scanOnce fuel list (scanTraversal fuel list start) deliverEach length start).isNone
  | .scanBatch start length =>
    if length = 0 then pure true else do
      return (← scanOnce fuel list (scanBatchTraversal fuel list start) deliverBatch length
        start).isNone

variable {s : Store} {r : Request} {rs : List Request}

theorem Request.run_ends (h : Represents list s m) (enough : Enough fuel s) (allowed : r.Allowed) :
    (r.run fuel list).Ends exec
      (fun answer t => answer = (s.call r).1 ∧ Represents list (s.call r).2 t) m := by
  cases r with
  | insert key value =>
    rw [Request.run, Prog.ends_bind]
    exact bslInsert_ends h enough
  | delete key =>
    rw [Request.run, Prog.ends_bind]
    exact bslDelete_ends h enough
  | get key =>
    rw [Request.run, Prog.ends_bind]
    exact bslGet_ends h enough
  | scan start length =>
    rw [Request.run, Prog.ends_bind]
    exact (bslScanN_ends h enough allowed).mono fun _ t done => ⟨rfl, done⟩
  | scanBatch start length =>
    rw [Request.run, Prog.ends_bind]
    exact (bslScanNBatch_ends h enough allowed).mono fun _ t done => ⟨rfl, done⟩

/-- A call adds one key at most. -/
theorem Store.length_call (s : Store) (r : Request) :
    (s.call r).2.pairs.length ≤ s.pairs.length + 1 := by
  cases r with
  | insert key value =>
    change (s.insert key value).2.pairs.length ≤ _
    unfold Store.insert
    split
    · exact Assoc.length_put_le
    · exact Nat.le_succ _
  | delete key =>
    change (s.delete key).2.pairs.length ≤ _
    unfold Store.delete
    split
    · split
      · exact Nat.le_succ_of_le Assoc.length_erase_le
      · exact Nat.le_succ _
    · exact Nat.le_succ _
  | get key => exact Nat.le_succ _
  | scan start length => exact Nat.le_succ _
  | scanBatch start length => exact Nat.le_succ _

theorem Store.length_calls (s : Store) (rs : List Request) :
    (s.calls rs).2.pairs.length ≤ s.pairs.length + rs.length := by
  induction rs generalizing s with
  | nil => exact Nat.le_refl _
  | cons r rs ih =>
    have here := s.length_call r
    have rest : (s.calls (r :: rs)).2.pairs.length ≤ (s.call r).2.pairs.length + rs.length :=
      ih (s.call r).2
    rw [List.length_cons]
    omega

theorem session_ends (h : Represents list s m) (levels : maxLevel < fuel)
    (keys : s.pairs.length + rs.length + 1 < fuel) (allowed : ∀ r ∈ rs, r.Allowed) :
    (session fuel list rs).Ends exec
      (fun answers t => answers = (s.calls rs).1 ∧ Represents list (s.calls rs).2 t) m := by
  induction rs generalizing s m with
  | nil => exact ⟨rfl, h⟩
  | cons r rs ih =>
    rw [List.length_cons] at keys
    have more := s.length_call r
    rw [session, Prog.ends_bind]
    apply (Request.run_ends h ⟨levels, by omega⟩ (allowed r List.mem_cons_self)).mono
    rintro answer t ⟨rfl, h'⟩
    rw [Prog.ends_bind]
    apply (ih h' (by omega) fun r' hr' => allowed r' (List.mem_cons_of_mem r hr')).mono
    rintro answers t' ⟨rfl, h''⟩
    exact ⟨rfl, h''⟩

theorem bsl_session (some : m.fresh ≠ null) (levels : maxLevel < fuel)
    (keys : rs.length + 1 < fuel) (allowed : ∀ r ∈ rs, r.Allowed) :
    Prog.Ends exec (do
      let list ← bslNew
      let answers ← session fuel list rs
      return (list, answers))
      (fun result t => result.2 = (Store.calls ⟨[], m.itemNext, m.output.flatten⟩ rs).1 ∧
        Represents result.1 (Store.calls ⟨[], m.itemNext, m.output.flatten⟩ rs).2 t) m := by
  rw [Prog.ends_bind]
  apply (bslNew_ends some).mono
  intro list t h
  rw [Prog.ends_bind]
  exact session_ends h levels (by simpa using keys) allowed

/-- A call is done at its first attempt, whatever the calls before it were. -/
theorem Request.first_ends (h : Represents list s m) (enough : Enough fuel s)
    (allowed : r.Allowed) :
    (r.first fuel list).Ends exec (fun done _ => done = true) m := by
  cases r with
  | insert key value =>
    rw [Request.first]
    split
    · next proper =>
      have first := insertFirst_ends value h enough proper
      rw [Prog.ends_bind] at first ⊢
      refine first.mono fun news t ends => ?_
      rw [Prog.ends_bind]
      exact ends.mono fun r t done => congrArg Option.isSome done.1
    · exact rfl
  | delete key =>
    rw [Request.first]
    split
    · next proper =>
      rw [Prog.ends_bind]
      apply (deleteFirst_ends h enough proper).mono
      rintro - t ⟨n, rfl, -⟩
      rfl
    · exact rfl
  | get key =>
    rw [Request.first]
    split
    · next proper =>
      rw [Prog.ends_bind]
      apply (getFirst_ends h enough proper).mono
      rintro - t ⟨v, rfl, -⟩
      rfl
    · exact rfl
  | scan start length =>
    rw [Request.first]
    split
    · exact rfl
    · next some =>
      rw [Prog.ends_bind]
      apply (scanFirst_ends h enough (allowed.resolve_right some) delivers_each
        (Nat.pos_of_ne_zero some)).mono
      rintro - t ⟨rfl, -⟩
      rfl
  | scanBatch start length =>
    rw [Request.first]
    split
    · exact rfl
    · next some =>
      rw [Prog.ends_bind]
      apply (scanFirst_ends h enough (allowed.resolve_right some) delivers_batch
        (Nat.pos_of_ne_zero some)).mono
      rintro - t ⟨rfl, -⟩
      rfl

/-! ### Calls on a new list -/

section New

/-- A memory without nodes. -/
def Mem.blank : Mem := ⟨fun _ => hoccInit, fun _ => Node.zero, 1, fun _ => null, [], [], []⟩

/-- The store of a new list. -/
abbrev Mem.store (m : Mem) : Store := ⟨[], m.itemNext, m.output.flatten⟩

/-- Any sequence of calls on a new list, run alone, returns what the store says; after it the list
is well formed and stands for the store. -/
theorem session_refines (memory : m.fresh ≠ null) (levels : maxLevel < fuel)
    (keys : rs.length + 1 < fuel) (allowed : ∀ r ∈ rs, r.Allowed) :
    ∃ list t, (do
      let list ← bslNew
      let answers ← session fuel list rs
      return (list, answers)).run exec m = some ((list, (m.store.calls rs).1), t) ∧
      Represents list (m.store.calls rs).2 t := by
  obtain ⟨⟨list, answers⟩, t, ran, rfl, h⟩ :=
    Prog.ends_iff.mp (bsl_session memory levels keys allowed)
  exact ⟨list, t, ran, h⟩

theorem session_refines_four : ∃ list t, (do
    let list ← bslNew
    let answers ← session 10 list [.insert 5 70, .insert 4 71, .scan 0 2, .delete 5]
    return (list, answers)).run exec Mem.blank = some ((list, (Mem.blank.store.calls
      [.insert 5 70, .insert 4 71, .scan 0 2, .delete 5]).1), t) ∧
    Represents list (Mem.blank.store.calls
      [.insert 5 70, .insert 4 71, .scan 0 2, .delete 5]).2 t :=
  session_refines (by decide) (by decide) (by decide) (by simp [Request.Allowed, keyMax])

/-- A list that calls have been made on. -/
theorem session_list (memory : m.fresh ≠ null) (levels : maxLevel < fuel)
    (keys : rs.length + 1 < fuel) (allowed : ∀ r ∈ rs, r.Allowed) : ∃ list t, (do
      let list ← bslNew
      let _ ← session fuel list rs
      return list).run exec m = some (list, t) ∧
      Enough fuel (m.store.calls rs).2 ∧ Represents list (m.store.calls rs).2 t := by
  have ends : Prog.Ends exec (do
      let list ← bslNew
      let _ ← session fuel list rs
      return list) (fun list t => Represents list (m.store.calls rs).2 t) m := by
    rw [Prog.ends_bind]
    apply (bslNew_ends memory).mono
    intro list t h
    rw [Prog.ends_bind]
    exact (session_ends h levels (by simpa using keys) allowed).mono fun _ _ => And.right
  obtain ⟨list, t, ran, h⟩ := Prog.ends_iff.mp ends
  have length := m.store.length_calls rs
  rw [List.length_nil] at length
  exact ⟨list, t, ran, ⟨levels, by omega⟩, h⟩

/-- Whatever the calls before it were, a call on a list that no one else uses is done at its first
attempt. -/
theorem session_first (memory : m.fresh ≠ null) (levels : maxLevel < fuel)
    (keys : rs.length + 1 < fuel) (allowed : ∀ r' ∈ r :: rs, r'.Allowed) : ∃ list t u, (do
      let list ← bslNew
      let _ ← session fuel list rs
      return list).run exec m = some (list, t) ∧
      (r.first fuel list).run exec t = some (true, u) := by
  obtain ⟨list, t, ran, enough, h⟩ :=
    session_list memory levels keys fun r' hr' => allowed r' (List.mem_cons_of_mem r hr')
  obtain ⟨_, u, first, rfl⟩ :=
    Prog.ends_iff.mp (Request.first_ends h enough (allowed r List.mem_cons_self))
  exact ⟨list, t, u, ran, first⟩

theorem session_first_delete : ∃ list t u, (do
    let list ← bslNew
    let _ ← session 10 list [.insert 5 70]
    return list).run exec Mem.blank = some (list, t) ∧
    (Request.first 10 list (.delete 5)).run exec t = some (true, u) :=
  session_first (by decide) (by decide) (by decide) (by simp [Request.Allowed])

/-- A scan that starts at `KEY_MAX` never comes back, whatever the list holds. -/
theorem session_scan_stuck {length turns : Nat} (memory : m.fresh ≠ null) (levels : maxLevel < fuel)
    (keys : rs.length + 1 < fuel) (allowed : ∀ r ∈ rs, r.Allowed) (pos : 0 < length) :
    ∃ list t, (do
      let list ← bslNew
      let _ ← session fuel list rs
      return list).run exec m = some (list, t) ∧
      (bslScanN turns list keyMax length).run exec t = none ∧
      (bslScanNBatch turns list keyMax length).run exec t = none := by
  obtain ⟨list, t, ran, -, ⟨⟨lv, has, -⟩, -, -⟩⟩ := session_list memory levels keys allowed
  exact ⟨list, t, ran, has.scan_none pos, has.scan_none pos⟩

theorem session_scan_stuck_one : ∃ list t, (do
    let list ← bslNew
    let _ ← session 10 list [.insert 5 70]
    return list).run exec Mem.blank = some (list, t) ∧
    (bslScanN 100 list keyMax 1).run exec t = none ∧
    (bslScanNBatch 100 list keyMax 1).run exec t = none :=
  session_scan_stuck (by decide) (by decide) (by decide) (by simp [Request.Allowed]) (by decide)

end New

end DBx1000.Bskiplist
