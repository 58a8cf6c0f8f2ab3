import GnuPoc.E32.Image
import GnuPoc.Genaif.Checksum
import GnuPoc.Petran.CheckedUid
import GnuPoc.Sis.Makesis

/-!
# GnuPoc.UidChecksums — one checksum of three UIDs

elf2e32, makesis 4, petran and genaif each compute the checksum of the UIDs on their own.  The bytes in even and in
odd places each have a remainder, whichever way it is computed.
-/

namespace GnuPoc

open GnuPoc.Lib

/-- The bytes of the UIDs that go into the low half. -/
def evenBytes (uid1 uid2 uid3 : UInt32) : Bytes :=
  [uid1.toUInt8, (uid1 >>> 16).toUInt8, uid2.toUInt8, (uid2 >>> 16).toUInt8, uid3.toUInt8, (uid3 >>> 16).toUInt8]

/-- The bytes of the UIDs that go into the high half. -/
def oddBytes (uid1 uid2 uid3 : UInt32) : Bytes :=
  [(uid1 >>> 8).toUInt8, (uid1 >>> 24).toUInt8, (uid2 >>> 8).toUInt8, (uid2 >>> 24).toUInt8, (uid3 >>> 8).toUInt8,
    (uid3 >>> 24).toUInt8]

/-- The two remainders side by side. -/
def halves (uid1 uid2 uid3 : UInt32) : UInt32 :=
  ((crcSlow (oddBytes uid1 uid2 uid3) 6).toUInt32 <<< 16) ||| (crcSlow (evenBytes uid1 uid2 uid3) 6).toUInt32

variable (uid1 uid2 uid3 : UInt32)

theorem elf2e32_uidCrc : E32.uidCrc uid1 uid2 uid3 = halves uid1 uid2 uid3 := rfl

theorem makesis_uidCrc : Sis.uidCrc uid1 uid2 uid3 = halves uid1 uid2 uid3 := by
  rw [halves, crcSlow_eq_crcFast, crcSlow_eq_crcFast]
  rfl

theorem crcSlow_six {bytes : Bytes} (h : bytes.length = 6) : crcSlow bytes 6 =
    bytes.foldl (fun (crc : UInt16) (c : UInt8) => crcBits 8 (crc ^^^ (c.toUInt16 <<< 8))) 0 := by
  rw [crcSlow, intBytes, if_pos (by decide)]
  show (bytes.take 6).foldl _ _ = _
  rw [List.take_of_length_le h.le]
  rfl

theorem genaif_uidcsum : Genaif.uidcsum [uid1, uid2, uid3] = halves uid1 uid2 uid3 := by
  rw [halves, crcSlow_six rfl, crcSlow_six rfl]
  have hstart : ((0 : UInt32), (0 : UInt32)) = (UInt16.toUInt32 0, UInt16.toUInt32 0) := rfl
  rw [Genaif.uidcsum, hstart, List.foldl_cons, List.foldl_cons, List.foldl_cons, List.foldl_nil,
    Genaif.uidcsumStep_eq, Genaif.uidcsumStep_eq, Genaif.uidcsumStep_eq, evenBytes, oddBytes]
  simp only [List.foldl_cons, List.foldl_nil]

theorem toUInt8_shifted (u : UInt32) (n : ℕ) (k : UInt32) (h : (u >>> k).toNat = u.toNat / n) :
    (u >>> k).toUInt8 = UInt8.ofNat (u.toNat / n) := by
  rw [toUInt8_eq_ofNat, h]

theorem word32_bytes (u : UInt32) :
    Petran.word32 u = [u.toUInt8, (u >>> 8).toUInt8, (u >>> 16).toUInt8, (u >>> 24).toUInt8] := by
  rw [toUInt8_shifted u 256 8 (by simp [Nat.shiftRight_eq_div_pow]),
    toUInt8_shifted u (256 * 256) 16 (by simp [Nat.shiftRight_eq_div_pow]),
    toUInt8_shifted u (256 * 256 * 256) 24 (by simp [Nat.shiftRight_eq_div_pow]), toUInt8_eq_ofNat u]
  rw [← Nat.div_div_eq_div_mul, ← Nat.div_div_eq_div_mul, ← Nat.div_div_eq_div_mul]
  simp only [Petran.word32, leBytes, ofNat_mod_byte]

theorem petran_Check : Petran.TCheckedUid.Check uid1 uid2 uid3 = halves uid1 uid2 uid3 := by
  rw [halves, crcSlow_eq_crcFast, crcSlow_eq_crcFast, Petran.TCheckedUid.Check, word32_bytes, word32_bytes, word32_bytes]
  simp only [Petran.TCheckedUid.checkSum, Petran.TCheckedUid.Crc_eq]
  rfl

/-- **One checksum.**  The four implementations agree on all UIDs. -/
theorem uidChecksums_agree (uid1 uid2 uid3 : UInt32) :
    E32.uidCrc uid1 uid2 uid3 = Sis.uidCrc uid1 uid2 uid3 ∧
      Petran.TCheckedUid.Check uid1 uid2 uid3 = Sis.uidCrc uid1 uid2 uid3 ∧
      Genaif.uidcsum [uid1, uid2, uid3] = Sis.uidCrc uid1 uid2 uid3 := by
  rw [elf2e32_uidCrc, makesis_uidCrc, petran_Check, genaif_uidcsum]
  exact ⟨rfl, rfl, rfl⟩

end GnuPoc
