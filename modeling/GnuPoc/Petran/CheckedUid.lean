import GnuPoc.Crc
import GnuPoc.Lib.CrcTab
import GnuPoc.Petran.Relocs

/-!
# GnuPoc.Petran.CheckedUid — the checksum of the UIDs (`e32uid.cpp`)

The register of `Crc` is a `UINT` that is cut to a `WORD` at the end; its table is the one of `crcInit`.
-/

namespace GnuPoc.Petran.TCheckedUid

open GnuPoc.Lib

/-- One turn of the loop of `Crc`. -/
def crcStep (crc : UInt32) (b : UInt8) : UInt32 :=
  (crc <<< 8) ^^^ (crcTab.getD (((crc >>> 8) ^^^ b.toUInt32) &&& 0xff).toNat 0).toUInt32

def Crc (aCrc : UInt16) (bytes : Bytes) : UInt16 := (bytes.foldl crcStep aCrc.toUInt32).toUInt16

def KMaxCheckedUid : ℕ := 3

/-- `checkSum` on the bytes from `pB` on. -/
def checkSum (memory : Bytes) (pB : ℕ) : UInt32 :=
  (Crc 0 ((List.range (KMaxCheckedUid * 4 / 2)).map fun k => memory.getD (pB + 2 * k) 0)).toUInt32

/-- `TCheckedUid::Check`. -/
def Check (uid1 uid2 uid3 : UInt32) : UInt32 :=
  let xuids := word32 uid1 ++ word32 uid2 ++ word32 uid3
  (checkSum xuids 1 <<< 16) ||| checkSum xuids 0

/-! ### The register and the table -/

theorem crcTab_eq (b : UInt8) : crcTab.getD b.toNat 0 = crcInit b := by
  have hall : ∀ n : Fin 256, crcTab.getD n.val 0 = crcInit (UInt8.ofNat n.val) := by decide +kernel
  have h := hall ⟨b.toNat, b.toNat_lt⟩
  rwa [UInt8.ofNat_toNat] at h

theorem index_eq (crc : UInt32) (b : UInt8) :
    (((crc >>> 8) ^^^ b.toUInt32) &&& 0xff).toNat = (b ^^^ (crc.toUInt16 >>> 8).toUInt8).toNat := by
  have hlow : (((crc >>> 8) ^^^ b.toUInt32) &&& 0xff).toNat = ((crc >>> 8) ^^^ b.toUInt32).toUInt8.toNat := by
    rw [UInt32.toNat_and, UInt32.toNat_toUInt8]
    exact Nat.and_two_pow_sub_one_eq_mod _ 8
  have hhigh : (crc >>> 8).toUInt8 = (crc.toUInt16 >>> 8).toUInt8 := by
    rw [← UInt8.toNat_inj]
    simp [Nat.shiftRight_eq_div_pow]
    omega
  rw [hlow, UInt32.toUInt8_xor, UInt8.toUInt8_toUInt32, hhigh, UInt8.xor_comm]

theorem toUInt16_shiftLeft_eight (crc : UInt32) : (crc <<< 8).toUInt16 = crc.toUInt16 <<< 8 :=
  UInt32.toUInt16_shiftLeft crc 8 (by decide)

/-- The low half of the register takes the step of `crcFast`. -/
theorem toUInt16_crcStep (crc : UInt32) (b : UInt8) :
    (crcStep crc b).toUInt16 = crcInit (b ^^^ (crc.toUInt16 >>> 8).toUInt8) ^^^ (crc.toUInt16 <<< 8) := by
  rw [crcStep, UInt32.toUInt16_xor, toUInt16_shiftLeft_eight, index_eq, crcTab_eq, UInt16.toUInt16_toUInt32,
    UInt16.xor_comm]

theorem toUInt16_foldl (bytes : Bytes) (crc : UInt32) : (bytes.foldl crcStep crc).toUInt16 =
    bytes.foldl (fun (remainder : UInt16) (b : UInt8) => crcInit (b ^^^ (remainder >>> 8).toUInt8) ^^^ (remainder <<< 8)) crc.toUInt16 := by
  induction bytes generalizing crc with
  | nil => rfl
  | cons b bytes ih => rw [List.foldl_cons, List.foldl_cons, ih, toUInt16_crcStep]

/-- `Crc` from 0 is `crcFast`. -/
theorem Crc_eq (bytes : Bytes) : Crc 0 bytes =
    bytes.foldl (fun (remainder : UInt16) (b : UInt8) => crcInit (b ^^^ (remainder >>> 8).toUInt8) ^^^ (remainder <<< 8)) 0 :=
  toUInt16_foldl bytes 0

end GnuPoc.Petran.TCheckedUid
