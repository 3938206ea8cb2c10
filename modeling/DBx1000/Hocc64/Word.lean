import Mathlib.Tactic.Ring
import DBx1000.Library.BitField

/-!
# The HOCC-64 state word

One 64-bit word holds the writer bit, the retry bit, a 14-bit reader count and a
48-bit version counter. `pack` assembles a word from these four fields; the other
lemmas say what each mask, sum and bitwise operation of `hocc64.h` does to a packed
word.
-/

namespace DBx1000.Hocc

open BitField

abbrev Hocc64 : Type := BitVec 64

def hoccInit : Hocc64 := 0#64

def hoccWriterBit : Hocc64 := 0x1
def hoccRetryBit : Hocc64 := 0x2
def hoccReaderUnit : Hocc64 := 0x4
def hoccVersionUnit : Hocc64 := 1 <<< 16
def hoccReaderMask : Hocc64 := (hoccVersionUnit - 1) &&& ~~~(hoccWriterBit ||| hoccRetryBit)
def hoccVersionMask : Hocc64 := ~~~(hoccReaderMask ||| hoccRetryBit ||| hoccWriterBit)

/-- The test of `hocc_validate` on the word loaded by the call: version and writer
bit are those of the expected word. -/
def hoccValidate (currV oldV : Hocc64) : Bool :=
  (currV ^^^ oldV) &&& (hoccVersionMask ||| hoccWriterBit) == 0#64

/-- The word that `hocc_write_unlock` stores after loading `v`. -/
def hoccUnlocked (v : Hocc64) : Hocc64 := (v + hoccVersionUnit) &&& hoccVersionMask

def hasWriter (v : Hocc64) : Bool := v &&& hoccWriterBit != 0#64
def hasRetry (v : Hocc64) : Bool := v &&& hoccRetryBit != 0#64
def hasReaders (v : Hocc64) : Bool := v &&& hoccReaderMask != 0#64

/-- The version counter, bits 63 to 16. -/
def version (v : Hocc64) : Nat := field 16 48 v.toNat

/-- The reader count, bits 15 to 2. -/
def readerCount (v : Hocc64) : Nat := field 2 14 v.toNat

/-- The word with the given fields. -/
def pack (version readers : Nat) (retry writer : Bool) : Hocc64 :=
  BitVec.ofNat 64 (version * 2 ^ 16 + readers * 2 ^ 2 + retry.toNat * 2 + writer.toNat)

theorem hoccInit_eq : hoccInit = pack 0 0 false false := by decide

/-! ### Reading the fields of a packed word -/

private theorem bool_lt (b : Bool) : b.toNat < 2 := by cases b <;> decide

theorem toNat_pack {ver rd : Nat} (rt w : Bool) (hv : ver < 2 ^ 48) (hr : rd < 2 ^ 14) :
    (pack ver rd rt w).toNat = ver * 2 ^ 16 + rd * 2 ^ 2 + rt.toNat * 2 + w.toNat := by
  have := bool_lt rt
  have := bool_lt w
  rw [pack, BitVec.toNat_ofNat]
  apply Nat.mod_eq_of_lt
  omega

theorem version_pack {ver rd : Nat} (rt w : Bool) (hv : ver < 2 ^ 48) (hr : rd < 2 ^ 14) :
    version (pack ver rd rt w) = ver := by
  have := bool_lt rt
  have := bool_lt w
  rw [version, field, toNat_pack rt w hv hr]
  omega

theorem readerCount_pack {ver rd : Nat} (rt w : Bool) (hv : ver < 2 ^ 48) (hr : rd < 2 ^ 14) :
    readerCount (pack ver rd rt w) = rd := by
  have := bool_lt rt
  have := bool_lt w
  rw [readerCount, field, toNat_pack rt w hv hr]
  omega

/-- A mask test reads one field. -/
private theorem and_mask_ne_zero {m : Hocc64} (lo len : Nat) (hm : m.toNat = mask lo len)
    (v : Hocc64) : (v &&& m != 0#64) = decide (field lo len v.toNat ≠ 0) := by
  have hand : (v &&& m).toNat = field lo len v.toNat * 2 ^ lo := by
    rw [BitVec.toNat_and, hm, and_mask]
  have hpos : 0 < 2 ^ lo := Nat.two_pow_pos lo
  by_cases h : field lo len v.toNat = 0
  · have : v &&& m = 0#64 := BitVec.eq_of_toNat_eq (by simp [hand, h])
    simp [this, h]
  · have : v &&& m ≠ 0#64 := by
      intro hzero
      rw [hzero] at hand
      have : field lo len v.toNat * 2 ^ lo = 0 := by simpa using hand.symm
      rcases Nat.mul_eq_zero.mp this with h0 | h0 <;> omega
    simp only [bne_iff_ne.mpr this, ne_eq, h, not_false_eq_true, decide_true]

theorem hasWriter_pack {ver rd : Nat} (rt w : Bool) (hv : ver < 2 ^ 48) (hr : rd < 2 ^ 14) :
    hasWriter (pack ver rd rt w) = w := by
  rw [hasWriter, and_mask_ne_zero 0 1 (by decide), field, toNat_pack rt w hv hr]
  cases w <;> simp <;> omega

theorem hasRetry_pack {ver rd : Nat} (rt w : Bool) (hv : ver < 2 ^ 48) (hr : rd < 2 ^ 14) :
    hasRetry (pack ver rd rt w) = rt := by
  have := bool_lt w
  rw [hasRetry, and_mask_ne_zero 1 1 (by decide), field, toNat_pack rt w hv hr]
  cases rt <;> simp <;> omega

theorem hasReaders_pack {ver rd : Nat} (rt w : Bool) (hv : ver < 2 ^ 48) (hr : rd < 2 ^ 14) :
    hasReaders (pack ver rd rt w) = decide (rd ≠ 0) := by
  rw [hasReaders, and_mask_ne_zero 2 14 (by decide)]
  have := readerCount_pack rt w hv hr
  rw [readerCount] at this
  rw [this]

/-! ### Writing the fields of a packed word -/

theorem pack_add_readerUnit (ver rd : Nat) (rt w : Bool) :
    pack ver rd rt w + hoccReaderUnit = pack ver (rd + 1) rt w := by
  rw [pack, pack, hoccReaderUnit, show (0x4 : Hocc64) = BitVec.ofNat 64 4 from rfl,
    ← BitVec.ofNat_add]
  refine congrArg (BitVec.ofNat 64) ?_
  ring

theorem pack_sub_readerUnit (ver rd : Nat) (rt w : Bool) :
    pack ver (rd + 1) rt w - hoccReaderUnit = pack ver rd rt w := by
  rw [← pack_add_readerUnit, BitVec.add_sub_cancel]

theorem pack_add_writerBit (ver rd : Nat) (rt : Bool) :
    pack ver rd rt false + hoccWriterBit = pack ver rd rt true := by
  rw [pack, pack, hoccWriterBit, show (0x1 : Hocc64) = BitVec.ofNat 64 1 from rfl,
    ← BitVec.ofNat_add]
  refine congrArg (BitVec.ofNat 64) ?_
  simp only [Bool.toNat_false, Bool.toNat_true]

/-- Setting bits below a field that starts at bit `i` adds them. -/
private theorem or_low {v m : Hocc64} {i a b : Nat} (hv : v.toNat = 2 ^ i * a)
    (hm : m.toNat = b) (hb : b < 2 ^ i) (hlt : 2 ^ i * a + b < 2 ^ 64) :
    v ||| m = BitVec.ofNat 64 (2 ^ i * a + b) := by
  apply BitVec.eq_of_toNat_eq
  rw [BitVec.toNat_or, hv, hm, ← Nat.two_pow_add_eq_or_of_lt hb, BitVec.toNat_ofNat,
    Nat.mod_eq_of_lt hlt]

theorem pack_or_writerBit {ver rd : Nat} (hv : ver < 2 ^ 48) (hr : rd < 2 ^ 14) :
    pack ver rd false false ||| hoccWriterBit = pack ver rd false true := by
  rw [or_low (i := 2) (a := ver * 2 ^ 14 + rd) (b := 1) _ (by decide) (by decide) (by omega)]
  · rw [pack]
    refine congrArg (BitVec.ofNat 64) ?_
    simp only [Bool.toNat_false, Bool.toNat_true]
    ring
  · rw [toNat_pack false false hv hr]
    simp only [Bool.toNat_false]
    ring

theorem pack_or_writerBit_or_retryBit {ver rd : Nat} (hv : ver < 2 ^ 48) (hr : rd < 2 ^ 14) :
    pack ver rd false false ||| hoccWriterBit ||| hoccRetryBit = pack ver rd true true := by
  rw [BitVec.or_assoc,
    or_low (i := 2) (a := ver * 2 ^ 14 + rd) (b := 3) _ (by decide) (by decide) (by omega)]
  · rw [pack]
    refine congrArg (BitVec.ofNat 64) ?_
    simp only [Bool.toNat_true]
    ring
  · rw [toNat_pack false false hv hr]
    simp only [Bool.toNat_false]
    ring

/-- Unlocking steps the version and clears everything else. -/
theorem hoccUnlocked_pack {ver : Nat} (rt w : Bool) (hv : ver + 1 < 2 ^ 48) :
    hoccUnlocked (pack ver 0 rt w) = pack (ver + 1) 0 false false := by
  have hsum : pack ver 0 rt w + hoccVersionUnit = pack (ver + 1) 0 rt w := by
    rw [pack, pack, hoccVersionUnit, show (1 <<< 16 : Hocc64) = BitVec.ofNat 64 (2 ^ 16) from rfl,
      ← BitVec.ofNat_add]
    refine congrArg (BitVec.ofNat 64) ?_
    ring
  have hmask : hoccVersionMask.toNat = mask 16 48 := by decide
  apply BitVec.eq_of_toNat_eq
  rw [hoccUnlocked, hsum, BitVec.toNat_and, hmask, and_mask, toNat_pack false false hv (by omega)]
  have hver : version (pack (ver + 1) 0 rt w) = ver + 1 := version_pack rt w hv (by omega)
  rw [version] at hver
  rw [hver]
  simp

/-! ### Validation -/

theorem hoccValidate_iff (x y : Hocc64) :
    hoccValidate x y = true ↔ version x = version y ∧ hasWriter x = hasWriter y := by
  have hmask : (hoccVersionMask ||| hoccWriterBit).toNat = mask 16 48 ||| 1 := by decide
  have hsplit (v : Hocc64) : (v &&& (hoccVersionMask ||| hoccWriterBit)).toNat =
      version v * 2 ^ 16 + (hasWriter v).toNat := by
    have hw : hasWriter v = decide (field 0 1 v.toNat ≠ 0) :=
      and_mask_ne_zero 0 1 (by decide) v
    have hbit : v.toNat &&& 1 = (hasWriter v).toNat := by
      rw [hw, Nat.and_one_is_mod, field]
      rcases Nat.mod_two_eq_zero_or_one v.toNat with h | h <;> simp [h]
    rw [BitVec.toNat_and, hmask, Nat.and_or_distrib_left, and_mask, hbit, Nat.mul_comm,
      ← Nat.two_pow_add_eq_or_of_lt (Nat.lt_of_lt_of_le (bool_lt _) (by decide)), version,
      Nat.mul_comm]
  have hxor : (x ^^^ y) &&& (hoccVersionMask ||| hoccWriterBit) = 0#64 ↔
      x &&& (hoccVersionMask ||| hoccWriterBit) = y &&& (hoccVersionMask ||| hoccWriterBit) := by
    have : (x ^^^ y) &&& (hoccVersionMask ||| hoccWriterBit) =
        (x &&& (hoccVersionMask ||| hoccWriterBit)) ^^^
          (y &&& (hoccVersionMask ||| hoccWriterBit)) := by
      apply BitVec.eq_of_getElem_eq
      intro i hi
      simp [Bool.and_xor_distrib_right]
    rw [this]
    exact BitVec.xor_eq_zero_iff
  rw [hoccValidate, beq_iff_eq, hxor, ← BitVec.toNat_inj, hsplit, hsplit]
  have := bool_lt (hasWriter x)
  have := bool_lt (hasWriter y)
  constructor
  · intro h
    have hnat : (hasWriter x).toNat = (hasWriter y).toNat := by omega
    refine ⟨by omega, ?_⟩
    cases hx : hasWriter x <;> cases hy : hasWriter y <;> simp_all
  · rintro ⟨h1, h2⟩
    rw [h1, h2]

/-! ### Any word -/

theorem hasWriter_eq (v : Hocc64) : hasWriter v = v.toNat.testBit 0 := by
  rw [hasWriter, and_mask_ne_zero 0 1 (by decide), field, Nat.testBit_zero]
  simp

theorem version_eq (v : Hocc64) : version v = v.toNat / 2 ^ 16 := by
  have := v.isLt
  rw [version, field]
  omega

theorem hasWriter_or (v w : Hocc64) : hasWriter (v ||| w) = (hasWriter v || hasWriter w) := by
  rw [hasWriter_eq, hasWriter_eq, hasWriter_eq, BitVec.toNat_or, Nat.testBit_or]

/-- Bits below the version do not change it. -/
theorem version_or {v w : Hocc64} (low : version w = 0) : version (v ||| w) = version v := by
  rw [version_eq, ← Nat.shiftRight_eq_div_pow] at *
  rw [version_eq, ← Nat.shiftRight_eq_div_pow, BitVec.toNat_or, Nat.shiftRight_or_distrib, low,
    Nat.or_zero]

/-- A reader that comes or goes leaves the writer bit alone. -/
theorem hasWriter_add_readerUnit (v : Hocc64) : hasWriter (v + hoccReaderUnit) = hasWriter v := by
  rw [hasWriter_eq, hasWriter_eq, Nat.testBit_zero, Nat.testBit_zero, BitVec.toNat_add,
    show hoccReaderUnit.toNat = 4 from rfl]
  congr 1
  rw [eq_iff_iff]
  omega

theorem hasWriter_sub_readerUnit (v : Hocc64) : hasWriter (v - hoccReaderUnit) = hasWriter v := by
  rw [← hasWriter_add_readerUnit (v - hoccReaderUnit), BitVec.sub_add_cancel]

/-- Unlocking changes the version, also when the counter runs over. -/
theorem version_hoccUnlocked_ne (v : Hocc64) : version (hoccUnlocked v) ≠ version v := by
  have hmask : hoccVersionMask.toNat = mask 16 48 := by decide
  have := v.isLt
  rw [version_eq, version_eq, hoccUnlocked, BitVec.toNat_and, hmask, and_mask, field,
    BitVec.toNat_add, show hoccVersionUnit.toNat = 2 ^ 16 from rfl]
  omega

/-- Unlocking leaves a version and nothing else, also when the counter runs over. -/
theorem hoccUnlocked_eq (v : Hocc64) :
    hoccUnlocked v = pack (version (v + hoccVersionUnit)) 0 false false := by
  have lt : version (v + hoccVersionUnit) < 2 ^ 48 := Nat.mod_lt _ (by decide)
  have hmask : hoccVersionMask.toNat = mask 16 48 := by decide
  apply BitVec.eq_of_toNat_eq
  rw [hoccUnlocked, BitVec.toNat_and, hmask, and_mask, toNat_pack false false lt (by decide)]
  rw [version]
  simp

/-- The word that `hocc_write_lock` callers validate against, when the loaded word
had the writer bit: the carry out of bit 0 clears it. -/
theorem hasWriter_add_writerBit {v : Hocc64} (h : hasWriter v = true) :
    hasWriter (v + hoccWriterBit) = false := by
  rw [hasWriter_eq, Nat.testBit_zero] at h ⊢
  rw [decide_eq_true_eq] at h
  rw [decide_eq_false_iff_not, BitVec.toNat_add, show hoccWriterBit.toNat = 1 from rfl]
  omega

end DBx1000.Hocc
