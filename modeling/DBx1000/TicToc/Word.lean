import Mathlib.Tactic.Ring
import DBx1000.Library.BitField

/-!
# The TicToc timestamp word

With `ATOMIC_WORD` and without `WRITE_PERMISSION_LOCK` a row's `_ts_word` holds the
lock bit, a 15-bit lease length and the 48-bit write timestamp; the read timestamp is
their sum. The functions below are the bit operations of `row_tictoc.cpp` on such a
word, the lemmas read them as arithmetic on its fields.
-/

namespace DBx1000.TicToc

open BitField

abbrev TsWord : Type := BitVec 64

def lockBit : TsWord := 1#64 <<< 63
def rtsLen : Nat := 15
def wtsLen : Nat := 63 - rtsLen
def wtsMask : TsWord := (1#64 <<< wtsLen) - 1#64
def rtsMask : TsWord := ((1#64 <<< rtsLen) - 1#64) <<< wtsLen

/-- `v & WTS_MASK`. -/
def wordWts (v : TsWord) : TsWord := v &&& wtsMask

/-- `(v & RTS_MASK) >> WTS_LEN`, the length of the lease. -/
def wordDelta (v : TsWord) : TsWord := (v &&& rtsMask) >>> wtsLen

def locked (v : TsWord) : Bool := v &&& lockBit != 0#64

/-- `Row_tictoc::get_rts`. -/
def getRts (v : TsWord) : TsWord := wordDelta v + wordWts v

/-- The word that `Row_tictoc::write_data` stores. -/
def writeWord (v wts : TsWord) : TsWord := (v &&& ~~~(rtsMask ||| wtsMask)) ||| wts

/-- The read timestamp stored in a word. -/
def readTs (v : TsWord) : Nat := (wordWts v).toNat + (wordDelta v).toNat

theorem toNat_wordWts (v : TsWord) : (wordWts v).toNat = field 0 48 v.toNat := by
  rw [wordWts, BitVec.toNat_and, show wtsMask.toNat = mask 0 48 by decide, and_mask]
  simp

theorem toNat_wordDelta (v : TsWord) : (wordDelta v).toNat = field 48 15 v.toNat := by
  rw [wordDelta, BitVec.toNat_ushiftRight, BitVec.toNat_and,
    show rtsMask.toNat = mask 48 15 by decide, and_mask, Nat.shiftRight_eq_div_pow]
  exact Nat.mul_div_cancel _ (Nat.two_pow_pos _)

theorem wordWts_lt (v : TsWord) : (wordWts v).toNat < 2 ^ 48 := by
  rw [toNat_wordWts, field]
  exact Nat.mod_lt _ (Nat.two_pow_pos _)

theorem wordDelta_lt (v : TsWord) : (wordDelta v).toNat < 2 ^ 15 := by
  rw [toNat_wordDelta, field]
  exact Nat.mod_lt _ (Nat.two_pow_pos _)

theorem toNat_getRts (v : TsWord) : (getRts v).toNat = readTs v := by
  have := wordWts_lt v
  have := wordDelta_lt v
  rw [getRts, BitVec.toNat_add, readTs]
  omega

/-- The timestamp fields do not see the lock bit. -/
theorem fields_of_mod_eq {v w : TsWord} (h : v.toNat % 2 ^ 63 = w.toNat % 2 ^ 63) :
    wordWts v = wordWts w ∧ wordDelta v = wordDelta w := by
  constructor
  · apply BitVec.eq_of_toNat_eq
    rw [toNat_wordWts, toNat_wordWts, field, field]
    omega
  · apply BitVec.eq_of_toNat_eq
    rw [toNat_wordDelta, toNat_wordDelta, field, field]
    omega

theorem readTs_of_mod_eq {v w : TsWord} (h : v.toNat % 2 ^ 63 = w.toNat % 2 ^ 63) :
    readTs v = readTs w := by
  obtain ⟨hw, hd⟩ := fields_of_mod_eq h
  rw [readTs, readTs, hw, hd]

theorem lock_mod (v : TsWord) : (v ||| lockBit).toNat % 2 ^ 63 = v.toNat % 2 ^ 63 := by
  rw [BitVec.toNat_or, Nat.or_mod_two_pow, show lockBit.toNat % 2 ^ 63 = 0 by decide,
    Nat.or_zero]

theorem release_mod (v : TsWord) : (v &&& ~~~lockBit).toNat % 2 ^ 63 = v.toNat % 2 ^ 63 := by
  rw [BitVec.toNat_and, show (~~~lockBit).toNat = 2 ^ 63 - 1 by decide,
    Nat.and_two_pow_sub_one_eq_mod, Nat.mod_mod]

/-! ### The lock bit -/

theorem locked_eq_msb (v : TsWord) : locked v = v.msb := by
  have h : v &&& lockBit = if v.getLsbD 63 then lockBit else 0#64 := by
    rw [show lockBit = BitVec.twoPow 64 63 from by decide, BitVec.and_twoPow]
  rw [locked, h, BitVec.msb_eq_getLsbD_last]
  cases v.getLsbD 63 <;> decide

theorem locked_lock (v : TsWord) : locked (v ||| lockBit) = true := by
  rw [locked_eq_msb, BitVec.msb_or, show lockBit.msb = true by decide, Bool.or_true]

theorem locked_release (v : TsWord) : locked (v &&& ~~~lockBit) = false := by
  rw [locked_eq_msb, BitVec.msb_and, show (~~~lockBit).msb = false by decide, Bool.and_false]

theorem toNat_writeWord {v wts : TsWord} (hw : wts.toNat < 2 ^ 48) :
    (writeWord v wts).toNat = 2 ^ 63 * field 63 1 v.toNat + wts.toNat := by
  rw [writeWord, BitVec.toNat_or, BitVec.toNat_and,
    show (~~~(rtsMask ||| wtsMask)).toNat = mask 63 1 by decide, and_mask, Nat.mul_comm,
    Nat.two_pow_add_eq_or_of_lt (by omega)]

theorem wordWts_writeWord {v wts : TsWord} (hw : wts.toNat < 2 ^ 48) :
    wordWts (writeWord v wts) = wts := by
  apply BitVec.eq_of_toNat_eq
  rw [toNat_wordWts, toNat_writeWord hw, field]
  omega

theorem readTs_writeWord {v wts : TsWord} (hw : wts.toNat < 2 ^ 48) :
    readTs (writeWord v wts) = wts.toNat := by
  rw [readTs, wordWts_writeWord hw, toNat_wordDelta, toNat_writeWord hw, field]
  omega

theorem locked_writeWord {v wts : TsWord} (hw : wts.toNat < 2 ^ 48) :
    locked (writeWord v wts) = locked v := by
  rw [locked_eq_msb, locked_eq_msb, BitVec.msb_eq_decide, BitVec.msb_eq_decide, toNat_writeWord hw,
    field]
  have := v.isLt
  congr 1
  apply propext
  omega

/-! ### Words without a lock -/

/-- The word with the given timestamp, lease length and no lock. -/
def leaseWord (wts delta : TsWord) : TsWord := 0#64 ||| wts ||| (delta <<< wtsLen)

theorem toNat_leaseWord {wts delta : TsWord} (hw : wts.toNat < 2 ^ 48)
    (hd : delta.toNat < 2 ^ 15) :
    (leaseWord wts delta).toNat = 2 ^ 48 * delta.toNat + wts.toNat := by
  have hshift : (delta <<< wtsLen).toNat = 2 ^ 48 * delta.toNat := by
    rw [BitVec.toNat_shiftLeft, Nat.shiftLeft_eq, show wtsLen = 48 from rfl, Nat.mul_comm]
    exact Nat.mod_eq_of_lt (by omega)
  rw [leaseWord, BitVec.zero_or, BitVec.toNat_or, hshift, Nat.or_comm,
    Nat.two_pow_add_eq_or_of_lt hw]

theorem wordWts_leaseWord {wts delta : TsWord} (hw : wts.toNat < 2 ^ 48)
    (hd : delta.toNat < 2 ^ 15) : wordWts (leaseWord wts delta) = wts := by
  apply BitVec.eq_of_toNat_eq
  rw [toNat_wordWts, toNat_leaseWord hw hd, field]
  omega

theorem wordDelta_leaseWord {wts delta : TsWord} (hw : wts.toNat < 2 ^ 48)
    (hd : delta.toNat < 2 ^ 15) : wordDelta (leaseWord wts delta) = delta := by
  apply BitVec.eq_of_toNat_eq
  rw [toNat_wordDelta, toNat_leaseWord hw hd, field]
  omega

theorem readTs_leaseWord {wts delta : TsWord} (hw : wts.toNat < 2 ^ 48)
    (hd : delta.toNat < 2 ^ 15) : readTs (leaseWord wts delta) = wts.toNat + delta.toNat := by
  rw [readTs, wordWts_leaseWord hw hd, wordDelta_leaseWord hw hd]

theorem locked_leaseWord {wts delta : TsWord} (hw : wts.toNat < 2 ^ 48)
    (hd : delta.toNat < 2 ^ 15) : locked (leaseWord wts delta) = false := by
  rw [locked_eq_msb, BitVec.msb_eq_decide, toNat_leaseWord hw hd, decide_eq_false_iff_not]
  omega

end DBx1000.TicToc
