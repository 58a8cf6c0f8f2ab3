import GnuPoc.Lib.LittleEndian

/-!
# GnuPoc.Crc — the CRC-CCITT of makesis 4 (`crc.c`, `crc.h`)

`crc` is `unsigned short`.  `crcTable` is a global that is zero until `crcInit` has run, so `crcFast`
takes it as an argument.
-/

namespace GnuPoc

open GnuPoc.Lib

def POLYNOMIAL : UInt16 := 0x1021
def INITIAL_REMAINDER : UInt16 := 0x0000
def TOPBIT : UInt16 := 0x8000

/-- One turn of the loop over the bits. -/
def crcBit (remainder : UInt16) : UInt16 :=
  if remainder &&& TOPBIT ≠ 0 then (remainder <<< 1) ^^^ POLYNOMIAL else remainder <<< 1

/-- The loop `for (bit = 8; bit > 0; --bit)`. -/
def crcBits : ℕ → UInt16 → UInt16
  | 0, remainder => remainder
  | bit + 1, remainder => crcBits bit (crcBit remainder)

/-- The bytes a loop up to an `int` counter reads, when `nBytes` was converted from `uint64_t`. -/
def intBytes (message : Bytes) (nBytes : ℕ) : Bytes :=
  if nBytes % 2 ^ 32 < 2 ^ 31 then message.take (nBytes % 2 ^ 32) else []

/-- `crcSlow`. -/
def crcSlow (message : Bytes) (nBytes : ℕ) : UInt16 :=
  (intBytes message nBytes).foldl
    (fun (remainder : UInt16) (b : UInt8) => crcBits 8 (remainder ^^^ (b.toUInt16 <<< 8)))
    INITIAL_REMAINDER

/-- The contents of the global `crcTable`. -/
abbrev CrcTable := UInt8 → UInt16

/-- `crcTable` before `crcInit`. -/
def crcTableUnset : CrcTable := fun _ => 0

/-- `crcInit`. -/
def crcInit : CrcTable := fun dividend => crcBits 8 (dividend.toUInt16 <<< 8)

/-- `crcFast`. -/
def crcFast (crcTable : CrcTable) (message : Bytes) (nBytes : ℕ) : UInt16 :=
  (intBytes message nBytes).foldl
    (fun (remainder : UInt16) (b : UInt8) =>
      crcTable (b ^^^ (remainder >>> 8).toUInt8) ^^^ (remainder <<< 8))
    INITIAL_REMAINDER

/-! ### The table -/

theorem crcBit_eq (r : UInt16) : crcBit r = (r <<< 1) ^^^ (if r.toBitVec.msb then POLYNOMIAL else 0) := by
  have hmsb : r &&& TOPBIT ≠ 0 ↔ r.toBitVec.msb = true := by
    have h : (r &&& TOPBIT).toBitVec = r.toBitVec &&& BitVec.twoPow 16 15 := rfl
    rw [Ne, ← UInt16.toBitVec_inj, BitVec.msb_eq_getLsbD_last, h, BitVec.and_twoPow]
    by_cases hb : r.toBitVec.getLsbD 15 = true
    · simp [hb]
    · simp
  unfold crcBit
  by_cases h : r.toBitVec.msb = true
  · rw [if_pos (hmsb.mpr h), if_pos h]
  · rw [if_neg (fun h0 => h (hmsb.mp h0)), if_neg h, UInt16.xor_zero]

theorem crcBit_xor (x y : UInt16) : crcBit (x ^^^ y) = crcBit x ^^^ crcBit y := by
  have hmsb : (x ^^^ y).toBitVec.msb = (x.toBitVec.msb ^^ y.toBitVec.msb) := by
    rw [UInt16.toBitVec_xor, BitVec.msb_xor]
  have hsplit (a b c d : UInt16) : (a ^^^ c) ^^^ (b ^^^ d) = (a ^^^ b) ^^^ (c ^^^ d) := by
    ac_rfl
  rw [crcBit_eq, crcBit_eq, crcBit_eq, hmsb, UInt16.shiftLeft_xor, hsplit]
  congr 1
  cases x.toBitVec.msb <;> cases y.toBitVec.msb <;> rfl

theorem crcBits_xor (n : ℕ) (x y : UInt16) : crcBits n (x ^^^ y) = crcBits n x ^^^ crcBits n y := by
  induction n generalizing x y with
  | zero => rfl
  | succ n ih => rw [crcBits, crcBit_xor, ih, crcBits, crcBits]

theorem crcBits_low (b : UInt8) : crcBits 8 b.toUInt16 = b.toUInt16 <<< 8 := by
  have hall : ∀ n : Fin 256, crcBits 8 (UInt8.ofNat n).toUInt16 = (UInt8.ofNat n).toUInt16 <<< 8 := by decide +kernel
  have h := hall ⟨b.toNat, b.toNat_lt⟩
  rwa [UInt8.ofNat_toNat] at h

theorem bytes_xor (r : BitVec 16) :
    r = (((r >>> 8).setWidth 8).setWidth 16 <<< 8) ^^^ (r.setWidth 8).setWidth 16 := by
  ext i hi
  simp only [BitVec.getElem_xor, BitVec.getElem_shiftLeft, BitVec.getElem_setWidth]
  by_cases h : i < 8
  · simp [h, BitVec.getLsbD_eq_getElem hi]
  · have hadd : 8 + (i - 8) = i := by omega
    have hlt : i - 8 < 8 := by omega
    simp [h, hlt, hadd, BitVec.getLsbD_eq_getElem hi]

theorem crcInit_step (remainder : UInt16) (b : UInt8) :
    crcBits 8 (remainder ^^^ (b.toUInt16 <<< 8)) =
      crcInit (b ^^^ (remainder >>> 8).toUInt8) ^^^ (remainder <<< 8) := by
  have hsplit : remainder = ((remainder >>> 8).toUInt8.toUInt16 <<< 8) ^^^ remainder.toUInt8.toUInt16 := by
    rw [← UInt16.toBitVec_inj]
    exact bytes_xor remainder.toBitVec
  have hlow : remainder.toUInt8.toUInt16 <<< 8 = remainder <<< 8 := by
    rw [← UInt16.toNat_inj]
    simp [Nat.shiftLeft_eq]
    omega
  have hxor : remainder ^^^ (b.toUInt16 <<< 8) =
      ((b ^^^ (remainder >>> 8).toUInt8).toUInt16 <<< 8) ^^^ remainder.toUInt8.toUInt16 := by
    conv_lhs => rw [hsplit]
    rw [UInt8.toUInt16_xor, UInt16.shiftLeft_xor]
    ac_rfl
  rw [hxor, crcBits_xor, crcBits_low, hlow]
  rfl

/-- **Table and bits.**  With its table set up, `crcFast` is `crcSlow`. -/
theorem crcSlow_eq_crcFast (message : Bytes) (nBytes : ℕ) :
    crcSlow message nBytes = crcFast crcInit message nBytes := by
  unfold crcSlow crcFast
  congr 1
  funext remainder b
  exact crcInit_step remainder b

/-- Before `crcInit` every message has the remainder zero. -/
theorem crcFast_unset (message : Bytes) (nBytes : ℕ) : crcFast crcTableUnset message nBytes = 0 := by
  unfold crcFast
  induction intBytes message nBytes with
  | nil => rfl
  | cons b bs ih =>
    have hstep (c : UInt8) : crcTableUnset c ^^^ (INITIAL_REMAINDER <<< 8) = INITIAL_REMAINDER := by
      rw [crcTableUnset, UInt16.zero_xor]
      decide
    rw [List.foldl_cons, hstep]
    exact ih

end GnuPoc
