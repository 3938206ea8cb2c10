import DBx1000.Silo.Call
import DBx1000.TicToc.Call

/-!
# What a validation leaves behind

`validate_silo` and `validate_tictoc` jump to their ends from many places, from inside the loops
that lock, check and unlock, and release the first `num_locks` rows of the write set there.

## Main result

Whatever the other threads do, a call of either function is clean: it releases the locks that it
has acquired, an abort writes nothing, and a commit writes the rows of the write set.
-/

namespace DBx1000

open Transition

variable {ρ V : Type*} [DecidableEq ρ]

/-- **Validations are clean.** The accesses of `validate_tictoc` have the timestamps that
`Row_tictoc::access` loads. -/
theorem validate_clean (primaryKey : ρ → Nat) (preAbort noWait : Bool) :
    (∀ (accesses : List (Silo.Access ρ V)) (c : Silo.Call ρ V),
      (accesses.map (·.origRow)).Nodup →
        (Silo.callMachine primaryKey preAbort noWait accesses).Reachable Silo.Polite c →
          Silo.Clean primaryKey preAbort noWait accesses c) ∧
    ∀ (accesses : List (TicToc.Access ρ V)) (c : TicToc.Call ρ V),
      (accesses.map (·.origRow)).Nodup → (∀ a ∈ accesses, TicToc.Loaded a) →
        (TicToc.callMachine primaryKey preAbort noWait accesses).Reachable TicToc.Polite c →
          TicToc.Clean primaryKey preAbort noWait accesses c := by
  constructor
  · intro accesses c distinct reached
    exact Silo.silo_call_clean distinct reached
  · intro accesses c distinct loaded reached
    exact TicToc.tictoc_call_clean distinct loaded reached

def Silo.SiloPc.isIdle (p : Silo.SiloPc ρ V) : Bool := p matches .idle

def TicToc.TxnPc.isIdle (p : TicToc.TxnPc ρ V) : Bool := p matches .idle

/-- One row is read and one written, and the first `try_lock` fails: in Silo on a lock, in TicToc in
its compare-and-swap. -/
theorem validate_clean_again :
    (∃ c : Silo.Call Bool Nat, c.state.pc () = .idle ∧ LockTrace.locksAfter [] c.trace = some [] ∧
      ∃ tid, LockTrace.acts c.trace = Silo.stores tid [⟨.WR, false, 0, 0, 5⟩]) ∧
    ∃ c : TicToc.Call Bool Nat, c.state.pc () = .idle ∧
      LockTrace.locksAfter [] c.trace = some [] ∧
        ∃ wts, TicToc.written c.trace = TicToc.stores wts [⟨.WR, false, 0, 0, 0, 5⟩] := by
  constructor
  · obtain ⟨c, path, is⟩ := Machine.exists_along
      (Silo.callMachine (fun _ : Bool => 3) false true [⟨.RD, true, 0, 0, 0⟩, ⟨.WR, false, 0, 0, 5⟩])
      Silo.Polite
      ⟨⟨fun _ => ⟨0, false⟩, fun _ => 0, fun _ => 0, fun _ => .lock
        ⟨[⟨.RD, true, 0, 0, 0⟩], [⟨.WR, false, 0, 0, 5⟩]⟩ [] [⟨.WR, false, 0, 0, 5⟩], 0, [], false⟩, []⟩
      ([.others (fun x => ⟨0, !x⟩) (fun _ => 0), .next, .next,
        .others (fun _ => ⟨0, false⟩) (fun _ => 0)] ++ List.replicate 14 .next)
      (fun c => ((c.state.pc ()).isIdle, c.state.log.length)) (true, 1) (by decide)
    simp only [Prod.mk.injEq] at is
    obtain ⟨idle, log⟩ := is
    have pc : c.state.pc () = .idle := by
      cases pc : c.state.pc () <;> rw [pc] at idle <;> first | rfl | cases idle
    have clean := (validate_clean (fun _ => 3) false true).1 _ c (by decide)
      ⟨_, _, ⟨rfl, rfl, rfl⟩, path⟩
    exact ⟨c, pc, clean.unlocked pc, clean.committed pc fun none => by simp [none] at log⟩
  · obtain ⟨c, path, is⟩ := Machine.exists_along
      (TicToc.callMachine (fun _ : Bool => 3) false true
        [⟨.RD, true, 0, 0, 0, 0⟩, ⟨.WR, false, 0, 0, 0, 5⟩])
      TicToc.Polite
      ⟨⟨fun _ => 0, fun _ => 0, fun _ => .lock ⟨[⟨.RD, true, 0, 0, 0, 0⟩],
        [⟨.WR, false, 0, 0, 0, 5⟩], 1⟩ [] [⟨.WR, false, 0, 0, 0, 5⟩], []⟩, none, []⟩
      (.casFails :: List.replicate 13 .next)
      (fun c => ((c.state.pc ()).isIdle, c.state.log.length)) (true, 1) (by decide)
    simp only [Prod.mk.injEq] at is
    obtain ⟨idle, log⟩ := is
    have pc : c.state.pc () = .idle := by
      cases pc : c.state.pc () <;> rw [pc] at idle <;> first | rfl | cases idle
    have loaded : ∀ a ∈ ([⟨.RD, true, 0, 0, 0, 0⟩, ⟨.WR, false, 0, 0, 0, 5⟩] :
        List (TicToc.Access Bool Nat)), TicToc.Loaded a := by
      simp only [List.mem_cons, List.not_mem_nil, or_false]
      rintro a (rfl | rfl) <;> exact ⟨0, by decide, by decide⟩
    have clean := (validate_clean (fun _ => 3) false true).2 _ c (by decide) loaded
      ⟨_, _, ⟨rfl, rfl, rfl, rfl⟩, path⟩
    exact ⟨c, pc, clean.unlocked pc, clean.committed pc fun none => by simp [none] at log⟩

end DBx1000
