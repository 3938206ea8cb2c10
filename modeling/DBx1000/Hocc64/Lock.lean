import DBx1000.Library.Transition
import DBx1000.Library.Family
import DBx1000.Hocc64.Word

/-!
# The HOCC-64 lock operations

Threads run the lock operations of `hocc64.h` on one state word. Every atomic load,
compare-and-swap, fetch-and-sub and store is one step; a spinning loop is the step
that leaves its thread where it is. `sections` counts the stores of
`hocc_write_unlock`, so it is the number of completed write sections.
-/

namespace DBx1000.Hocc

open Transition

/-- Where a thread is in the lock operations. -/
inductive Pc
  | idle
  /-- `hocc_read_lock`: before the load, and before the CAS with the loaded word. -/
  | readLoad
  | readCas (v : Hocc64)
  /-- `hocc_read_trylock`, likewise. -/
  | tryLoad
  | tryCas (v : Hocc64)
  /-- In a read section. -/
  | reading
  /-- `hocc_write_lock`, or `hocc_write_lock_evicting` when the flag is set. -/
  | writeLoad (evicting : Bool)
  | writeCas (evicting : Bool) (v : Hocc64)
  | drain (evicting : Bool)
  /-- The lock call has returned. -/
  | writing (evicting : Bool)
  /-- `hocc_write_unlock` between its load of `v` and its store. -/
  | unlock (evicting : Bool) (v : Hocc64)
  deriving DecidableEq

/-- What a thread does next: it calls an operation, or goes on with the one it is in. -/
inductive Call
  | readLock
  | readTrylock
  | readUnlock
  | writeLock
  | writeLockEvicting
  | writeUnlock
  | next
  deriving DecidableEq

structure State (n : Nat) where
  word : Hocc64
  pc : Fin n → Pc
  sections : Nat

variable {n : Nat}

def State.goto (s : State n) (t : Fin n) (p : Pc) : State n :=
  { s with pc := Function.update s.pc t p }

/-- The word that the CAS of the write lock stores. -/
def claimed (evicting : Bool) (v : Hocc64) : Hocc64 :=
  if evicting then v ||| hoccWriterBit ||| hoccRetryBit else v ||| hoccWriterBit

/-- The next atomic step inside the operation that thread `t` has called. -/
def resume (s : State n) (t : Fin n) : Option (State n) :=
  match s.pc t with
  | .idle | .reading | .writing _ => none
  | .readLoad => if hasWriter s.word then some s else some (s.goto t (.readCas s.word))
  | .readCas v =>
    if s.word = v then some { s.goto t .reading with word := v + hoccReaderUnit }
    else some (s.goto t .readLoad)
  | .tryLoad =>
    if hasRetry s.word then some (s.goto t .idle)
    else if hasWriter s.word then some s
    else some (s.goto t (.tryCas s.word))
  | .tryCas v =>
    if s.word = v then some { s.goto t .reading with word := v + hoccReaderUnit }
    else some (s.goto t .tryLoad)
  | .writeLoad e => if hasWriter s.word then some s else some (s.goto t (.writeCas e s.word))
  | .writeCas e v =>
    if s.word = v then some { s.goto t (.drain e) with word := claimed e v }
    else some (s.goto t (.writeLoad e))
  | .drain e => if hasReaders s.word then some s else some (s.goto t (.writing e))
  | .unlock _ v =>
    some { s.goto t .idle with word := hoccUnlocked v, sections := s.sections + 1 }

def step (s : State n) : Fin n × Call → Option (State n)
  | (t, .readLock) => if s.pc t = .idle then some (s.goto t .readLoad) else none
  | (t, .readTrylock) => if s.pc t = .idle then some (s.goto t .tryLoad) else none
  | (t, .readUnlock) =>
    if s.pc t = .reading then some { s.goto t .idle with word := s.word - hoccReaderUnit } else none
  | (t, .writeLock) => if s.pc t = .idle then some (s.goto t (.writeLoad false)) else none
  | (t, .writeLockEvicting) => if s.pc t = .idle then some (s.goto t (.writeLoad true)) else none
  | (t, .writeUnlock) =>
    match s.pc t with
    | .writing e => some (s.goto t (.unlock e s.word))
    | _ => none
  | (t, .next) => resume s t

/-- All threads idle on a word set to `HOCC_INIT`. -/
def initial : State n := ⟨hoccInit, fun _ => .idle, 0⟩

def machine (n : Nat) : Machine (State n) (Fin n × Call) where
  init s := s = initial
  step := step

/-! ### Roles -/

/-- Between the successful CAS of a write lock and the store of the unlock. -/
def Pc.owns : Pc → Bool
  | .drain _ | .writing _ | .unlock _ _ => true
  | _ => false

/-- An owner that took the lock with `hocc_write_lock_evicting`. -/
def Pc.evicts : Pc → Bool
  | .drain e | .writing e | .unlock e _ => e
  | _ => false

/-- An owner whose drain loop has ended. -/
def Pc.drained : Pc → Bool
  | .writing _ | .unlock _ _ => true
  | _ => false

/-- The word that a pending CAS expects. -/
def Pc.expects : Pc → Option Hocc64
  | .readCas v | .tryCas v | .writeCas _ v => some v
  | _ => none

theorem Pc.owns_of_evicts {p : Pc} (h : p.evicts = true) : p.owns = true := by
  cases p <;> simp_all [Pc.evicts, Pc.owns]

theorem Pc.owns_of_drained {p : Pc} (h : p.drained = true) : p.owns = true := by
  cases p <;> simp_all [Pc.drained, Pc.owns]

/-- The number of threads in read sections. -/
def State.readers (s : State n) : Nat := (Finset.univ.filter fun t => s.pc t = .reading).card

theorem State.readers_le (s : State n) : s.readers ≤ n := by
  simpa [State.readers] using Finset.card_filter_le Finset.univ fun t => s.pc t = .reading

/-- Where the threads are after `t` went to `p`. -/
theorem goto_pc (s : State n) (t : Fin n) (p : Pc) (u : Fin n) :
    (s.goto t p).pc u = if u = t then p else s.pc u :=
  Function.update_apply s.pc t p u

theorem readers_goto (s : State n) (t : Fin n) (p : Pc) :
    (s.goto t p).readers + (if s.pc t = .reading then 1 else 0) =
      s.readers + (if p = .reading then 1 else 0) :=
  Family.card_update (· = Pc.reading) s.pc t p

/-- What a step of thread `t` can do. A quiet step changes neither the word nor
anybody's role; the others enter and leave read sections and write sections. -/
inductive Effect (s : State n) (t : Fin n) : State n → Prop
  | quiet (p : Pc) : (p = .reading ↔ s.pc t = .reading) → p.owns = (s.pc t).owns →
      p.evicts = (s.pc t).evicts → (p.drained = true → (s.pc t).drained = true ∨
        hasReaders s.word = false) → (∀ v, p.expects = some v → hasWriter v = false ∨
        (s.pc t).expects = some v) → (∀ e v, p = .unlock e v → v = s.word ∨ p = s.pc t) →
      Effect s t (s.goto t p)
  | enter : (s.pc t).expects = some s.word → s.pc t ≠ .reading → (s.pc t).owns = false →
      Effect s t { s.goto t .reading with word := s.word + hoccReaderUnit }
  | leave : s.pc t = .reading →
      Effect s t { s.goto t .idle with word := s.word - hoccReaderUnit }
  | claim (e : Bool) : (s.pc t).expects = some s.word → s.pc t ≠ .reading →
      (s.pc t).owns = false → Effect s t { s.goto t (.drain e) with word := claimed e s.word }
  | release (e : Bool) (v : Hocc64) : s.pc t = .unlock e v →
      Effect s t { s.goto t .idle with word := hoccUnlocked v, sections := s.sections + 1 }

theorem goto_self (s : State n) (t : Fin n) : s.goto t (s.pc t) = s := by
  simp [State.goto]

theorem Effect.stay (s : State n) (t : Fin n) : Effect s t s := by
  have same := Effect.quiet (s := s) (t := t) (s.pc t) Iff.rfl rfl rfl (fun d => .inl d)
    (fun _ hv => .inr hv) (fun _ _ _ => .inr rfl)
  rwa [goto_self] at same

/-- A step between places outside every section, towards the CAS of a freshly loaded word. -/
theorem Effect.walk {s : State n} {t : Fin n} (p : Pc) (hp : p ≠ .reading)
    (ho : p.owns = false) (hr : s.pc t ≠ .reading) (hown : (s.pc t).owns = false)
    (he : ∀ v, p.expects = some v → hasWriter v = false) : Effect s t (s.goto t p) := by
  have hev (q : Pc) (hq : q.owns = false) : q.evicts = false := by
    cases q <;> simp_all [Pc.owns, Pc.evicts]
  refine .quiet p ⟨fun e => absurd e hp, fun e => absurd e hr⟩ (ho.trans hown.symm)
    ((hev _ ho).trans (hev _ hown).symm) (fun d => ?_) (fun v hv => .inl (he v hv))
    (fun e v hu => ?_)
  · rw [Pc.owns_of_drained d] at ho; cases ho
  · rw [hu] at ho; cases ho

theorem resume_effect {s s' : State n} {t : Fin n} (h : resume s t = some s') :
    Effect s t s' := by
  unfold resume at h
  cases hp : s.pc t with
  | idle | reading | writing e => simp [hp] at h
  | readLoad =>
    simp only [hp] at h
    split at h
    · cases h; exact .stay s t
    · next free =>
      cases h
      exact .walk _ (by simp) rfl (by simp [hp]) (by simp [hp, Pc.owns])
        (by simpa [Pc.expects] using free)
  | readCas v =>
    simp only [hp] at h
    split at h
    · next same =>
      cases h; subst same
      exact .enter (by simp [hp, Pc.expects]) (by simp [hp]) (by simp [hp, Pc.owns])
    · cases h
      exact .walk _ (by simp) rfl (by simp [hp]) (by simp [hp, Pc.owns]) (by simp [Pc.expects])
  | tryLoad =>
    simp only [hp] at h
    split at h
    · cases h
      exact .walk _ (by simp) rfl (by simp [hp]) (by simp [hp, Pc.owns]) (by simp [Pc.expects])
    · split at h
      · cases h; exact .stay s t
      · next free =>
        cases h
        exact .walk _ (by simp) rfl (by simp [hp]) (by simp [hp, Pc.owns])
          (by simpa [Pc.expects] using free)
  | tryCas v =>
    simp only [hp] at h
    split at h
    · next same =>
      cases h; subst same
      exact .enter (by simp [hp, Pc.expects]) (by simp [hp]) (by simp [hp, Pc.owns])
    · cases h
      exact .walk _ (by simp) rfl (by simp [hp]) (by simp [hp, Pc.owns]) (by simp [Pc.expects])
  | writeLoad e =>
    simp only [hp] at h
    split at h
    · cases h; exact .stay s t
    · next free =>
      cases h
      exact .walk _ (by simp) rfl (by simp [hp]) (by simp [hp, Pc.owns])
        (by simpa [Pc.expects] using free)
  | writeCas e v =>
    simp only [hp] at h
    split at h
    · next same =>
      cases h; subst same
      exact .claim e (by simp [hp, Pc.expects]) (by simp [hp]) (by simp [hp, Pc.owns])
    · cases h
      exact .walk _ (by simp) rfl (by simp [hp]) (by simp [hp, Pc.owns]) (by simp [Pc.expects])
  | drain e =>
    simp only [hp] at h
    split at h
    · cases h; exact .stay s t
    · next empty =>
      cases h
      exact .quiet _ (by simp [hp]) (by simp [hp, Pc.owns]) (by simp [hp, Pc.evicts])
        (fun _ => .inr (by simpa using empty)) (by simp [Pc.expects]) (by simp)
  | unlock e v =>
    simp only [hp] at h
    cases h
    exact .release e v hp

theorem step_effect {s s' : State n} {t : Fin n} {c : Call} (h : step s (t, c) = some s') :
    Effect s t s' := by
  have call (p : Pc) (hp : p ≠ .reading) (ho : p.owns = false) (hx : p.expects = none)
      (h : (if s.pc t = .idle then some (s.goto t p) else none) = some s') : Effect s t s' := by
    split at h
    · next idle =>
      cases h
      exact .walk p hp ho (by simp [idle]) (by simp [idle, Pc.owns]) (by simp [hx])
    · cases h
  cases c with
  | readLock => exact call .readLoad (by simp) rfl rfl h
  | readTrylock => exact call .tryLoad (by simp) rfl rfl h
  | writeLock => exact call (.writeLoad false) (by simp) rfl rfl h
  | writeLockEvicting => exact call (.writeLoad true) (by simp) rfl rfl h
  | next => exact resume_effect h
  | readUnlock =>
    simp only [step] at h
    split at h
    · next hp => cases h; exact .leave hp
    · cases h
  | writeUnlock =>
    simp only [step] at h
    split at h
    · next e hp =>
      cases h
      exact .quiet _ (by simp [hp]) (by simp [hp, Pc.owns]) (by simp [hp, Pc.evicts])
        (fun _ => .inl (by simp [hp, Pc.drained])) (by simp [Pc.expects])
        (fun _ _ he => by cases he; exact .inl rfl)
    · cases h

end DBx1000.Hocc
