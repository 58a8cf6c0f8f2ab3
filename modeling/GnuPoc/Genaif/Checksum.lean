import GnuPoc.Crc

/-!
# GnuPoc.Genaif.Checksum — the checksum of the UIDs (`genaif.c`)

`docrc16_1` shifts an `unsigned int` and cuts it to 16 bits at the end only.  What is shifted out above does not
come back, so that the low half is the remainder of a register of 16 bits.
-/

namespace GnuPoc.Genaif

open GnuPoc.Lib

/-- The loop of `docrc16_1` over `i`. -/
def docrcLoop : ℕ → UInt32 → UInt32
  | 0, acc => acc
  | i + 1, acc => docrcLoop i (if acc &&& 0x8000 ≠ 0 then (acc <<< 1) ^^^ 0x1021 else acc <<< 1)

def docrc16_1 (crc : UInt32) (c : UInt8) : UInt32 := docrcLoop 8 (crc ^^^ (c.toUInt32 <<< 8)) &&& 0xffff

/-- One turn of the loop of `uidcsum`: `crc1` and `crc2`. -/
def uidcsumStep (crc : UInt32 × UInt32) (u : UInt32) : UInt32 × UInt32 :=
  let crc1 := docrc16_1 crc.1 (u >>> 0 &&& 0xff).toUInt8
  let crc2 := docrc16_1 crc.2 (u >>> 8 &&& 0xff).toUInt8
  (docrc16_1 crc1 (u >>> 16 &&& 0xff).toUInt8, docrc16_1 crc2 (u >>> 24 &&& 0xff).toUInt8)

def uidcsum (u : List UInt32) : UInt32 :=
  let crc := u.foldl uidcsumStep (0, 0)
  (crc.2 <<< 16) ||| crc.1

/-! ### The low half -/

theorem toUInt16_shiftLeft (acc : UInt32) : (acc <<< 1).toUInt16 = acc.toUInt16 <<< 1 :=
  UInt32.toUInt16_shiftLeft acc 1 (by decide)

theorem topBit_iff (acc : UInt32) : acc &&& 0x8000 ≠ 0 ↔ acc.toUInt16 &&& TOPBIT ≠ 0 := by
  have hand : (acc &&& 0x8000).toUInt16 = acc.toUInt16 &&& TOPBIT := UInt32.toUInt16_and ..
  have hback : (acc &&& 0x8000).toUInt16.toUInt32 = acc &&& 0x8000 := by
    rw [← UInt32.toNat_inj, UInt16.toNat_toUInt32, UInt32.toNat_toUInt16]
    refine Nat.mod_eq_of_lt ?_
    rw [UInt32.toNat_and]
    exact lt_of_le_of_lt Nat.and_le_right (by decide)
  constructor
  · intro hne hzero
    rw [← hand] at hzero
    rw [← hback, hzero] at hne
    exact hne rfl
  · intro hne hzero
    rw [← hand, hzero] at hne
    exact hne rfl

theorem toUInt16_docrcLoop (n : ℕ) (acc : UInt32) : (docrcLoop n acc).toUInt16 = crcBits n acc.toUInt16 := by
  induction n generalizing acc with
  | zero => rfl
  | succ n ih =>
    rw [docrcLoop, ih, crcBits, crcBit]
    by_cases htop : acc &&& 0x8000 ≠ 0
    · rw [if_pos htop, if_pos ((topBit_iff acc).mp htop), UInt32.toUInt16_xor, toUInt16_shiftLeft]
      rfl
    · rw [if_neg htop, if_neg fun h => htop ((topBit_iff acc).mpr h), toUInt16_shiftLeft]

theorem and_ffff (acc : UInt32) : acc &&& 0xffff = acc.toUInt16.toUInt32 := by
  rw [← UInt32.toNat_inj, UInt16.toNat_toUInt32, UInt32.toNat_toUInt16, UInt32.toNat_and]
  exact Nat.and_two_pow_sub_one_eq_mod _ 16

theorem toUInt16_byte (c : UInt8) : (c.toUInt32 <<< 8).toUInt16 = c.toUInt16 <<< 8 := by
  rw [UInt32.toUInt16_shiftLeft _ _ (by decide), UInt8.toUInt16_toUInt32]
  rfl

theorem docrc16_1_eq (crc : UInt16) (c : UInt8) :
    docrc16_1 crc.toUInt32 c = (crcBits 8 (crc ^^^ (c.toUInt16 <<< 8))).toUInt32 := by
  rw [docrc16_1, and_ffff, toUInt16_docrcLoop, UInt32.toUInt16_xor, toUInt16_byte, UInt16.toUInt16_toUInt32]

/-- The bytes of a word that go into the one and the other half of the checksum. -/
theorem uidcsumStep_eq (crc1 crc2 : UInt16) (u : UInt32) :
    uidcsumStep (crc1.toUInt32, crc2.toUInt32) u =
      (([u.toUInt8, (u >>> 16).toUInt8].foldl (fun (crc : UInt16) (c : UInt8) => crcBits 8 (crc ^^^ (c.toUInt16 <<< 8))) crc1).toUInt32,
        ([(u >>> 8).toUInt8, (u >>> 24).toUInt8].foldl
          (fun (crc : UInt16) (c : UInt8) => crcBits 8 (crc ^^^ (c.toUInt16 <<< 8))) crc2).toUInt32) := by
  have hzero : u >>> 0 = u := by
    rw [← UInt32.toNat_inj]
    simp
  rw [uidcsumStep]
  simp only [toUInt8_byte, docrc16_1_eq, hzero]
  rfl

end GnuPoc.Genaif
