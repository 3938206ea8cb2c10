import Mathlib.Data.Nat.Init
import DBx1000.Bskiplist.Memory

/-!
# The level of a key

`bsl_level_for_key` draws the level of a key from its hash, so all operations on a key
agree on it.
-/

namespace DBx1000.Bskiplist

def hash64 (x : BitVec 64) : BitVec 64 :=
  let x := (x ^^^ (x >>> 30)) * 0xbf58476d1ce4e5b9
  let x := (x ^^^ (x >>> 27)) * 0x94d049bb133111eb
  x ^^^ (x >>> 31)

/-- `BSL_P_LEVEL`. -/
def levelRate : Nat := capacity / 2

/-- The turns of the loop that are left, its `result` and the hash `h`. -/
def levelLoop : Nat → Nat → Nat → Nat
  | 0, result, _ => result
  | turns + 1, result, h =>
    if h % levelRate = 0 then
      let result := result + 1
      let h := h / levelRate
      levelLoop turns result (if h < levelRate then (hash64 (.ofNat 64 (h + result))).toNat else h)
    else result

/-- `bsl_level_for_key`. -/
def levelForKey (key : Key) : Nat := levelLoop (maxLevel - 1) 0 (hash64 (.ofNat 64 key)).toNat

theorem levelLoop_le (turns result h : Nat) : levelLoop turns result h ≤ result + turns := by
  induction turns generalizing result h with
  | zero => exact Nat.le_refl _
  | succ turns ih =>
    rw [levelLoop]
    split
    · exact (ih _ _).trans (by omega)
    · omega

theorem levelForKey_lt (key : Key) : levelForKey key < maxLevel := by
  have := levelLoop_le (maxLevel - 1) 0 (hash64 (.ofNat 64 key)).toNat
  rw [levelForKey]
  simp only [maxLevel] at *
  omega

end DBx1000.Bskiplist
