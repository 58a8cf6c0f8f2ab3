import GnuPoc.Lib.ByteFile

/-!
# GnuPoc.Genaif.Words — `GetLong` and `PutLong` (`genaif.c`)

`GetLong` masks what `fgetc` returns, so that the end of the file reads as bytes of `0xff`.
-/

namespace GnuPoc.Genaif

open GnuPoc.Lib

/-- `fgetc(fp) & 0xFF`. -/
def getByte (s : Stream) : UInt8 × Stream := (s.fgetc.1.getD 0xff, s.fgetc.2)

/-- The word of four bytes. -/
def wordOf (a b c d : UInt8) : UInt32 := a.toUInt32 ||| b.toUInt32 <<< 0x08 ||| c.toUInt32 <<< 0x10 ||| d.toUInt32 <<< 0x18

def GetLong (s : Stream) : UInt32 × Stream :=
  let (a, s) := getByte s
  let (b, s) := getByte s
  let (c, s) := getByte s
  let (d, s) := getByte s
  (wordOf a b c d, s)

def PutLong (val : UInt32) : Bytes :=
  [(val &&& 0xff).toUInt8, (val >>> 0x08 &&& 0xff).toUInt8, (val >>> 0x10 &&& 0xff).toUInt8,
    (val >>> 0x18 &&& 0xff).toUInt8]

theorem toNat_wordOf (a b c d : UInt8) : (wordOf a b c d).toNat = ofLE [a, b, c, d] := by
  have ha := a.toNat_lt
  have hb := b.toNat_lt
  have hc := c.toNat_lt
  have hd := d.toNat_lt
  have hshift : ∀ (x : UInt8) (k : UInt32), k.toNat ≤ 24 → (x.toUInt32 <<< k).toNat = x.toNat <<< k.toNat := by
    intro x k hk
    have hx := x.toNat_lt
    have hlt : x.toNat <<< k.toNat < 2 ^ 32 := by
      rw [Nat.shiftLeft_eq]
      calc x.toNat * 2 ^ k.toNat < 2 ^ 8 * 2 ^ k.toNat := Nat.mul_lt_mul_of_pos_right hx (Nat.two_pow_pos _)
        _ ≤ 2 ^ 8 * 2 ^ 24 := Nat.mul_le_mul_left _ (Nat.pow_le_pow_right (by omega) hk)
    have hk32 : k.toNat % 32 = k.toNat := Nat.mod_eq_of_lt (by omega)
    rw [UInt32.toNat_shiftLeft, UInt8.toNat_toUInt32, hk32, Nat.mod_eq_of_lt hlt]
  rw [wordOf, UInt32.toNat_or, UInt32.toNat_or, UInt32.toNat_or, hshift b _ (by decide), hshift c _ (by decide),
    hshift d _ (by decide), UInt8.toNat_toUInt32]
  show a.toNat ||| b.toNat <<< 8 ||| c.toNat <<< 16 ||| d.toNat <<< 24 = _
  rw [Nat.or_comm a.toNat, ← Nat.shiftLeft_add_eq_or_of_lt ha, Nat.or_comm _ (c.toNat <<< 16),
    ← Nat.shiftLeft_add_eq_or_of_lt (by rw [Nat.shiftLeft_eq]; omega), Nat.or_comm _ (d.toNat <<< 24),
    ← Nat.shiftLeft_add_eq_or_of_lt (by simp only [Nat.shiftLeft_eq]; omega)]
  simp only [Nat.shiftLeft_eq, ofLE]
  omega

theorem lowByte_eq (u : UInt32) : (u &&& 0xff).toUInt8 = UInt8.ofNat (u.toNat % 256) := by
  rw [toUInt8_byte, toUInt8_eq_ofNat, ofNat_mod_byte]

theorem toNat_shiftRight (u : UInt32) {k : UInt32} (h : k.toNat < 32) : (u >>> k).toNat = u.toNat / 2 ^ k.toNat := by
  rw [UInt32.toNat_shiftRight, Nat.mod_eq_of_lt h, Nat.shiftRight_eq_div_pow]

theorem PutLong_eq (val : UInt32) : PutLong val = leBytes 4 val.toNat := by
  rw [PutLong, lowByte_eq, lowByte_eq, lowByte_eq, lowByte_eq, toNat_shiftRight _ (by decide),
    toNat_shiftRight _ (by decide), toNat_shiftRight _ (by decide)]
  simp only [leBytes, Nat.div_div_eq_div_mul]
  rfl

@[simp] theorem length_PutLong (val : UInt32) : (PutLong val).length = 4 := rfl

theorem PutLong_wordOf (a b c d : UInt8) : PutLong (wordOf a b c d) = [a, b, c, d] := by
  rw [PutLong_eq, toNat_wordOf]
  exact leBytes_ofLE [a, b, c, d]

/-! ### What a read sees -/

/-- The bytes with as many of `0xff` behind them as a word needs. -/
def padded (bs : Bytes) : Bytes := bs ++ List.replicate (4 - bs.length) 0xff

theorem getByte_cons {s : Stream} {c : UInt8} {cs : Bytes} (h : s.rest = c :: cs) :
    getByte s = (c, { s with pos := s.pos + 1 }) ∧ (getByte s).2.rest = cs := by
  obtain ⟨hget, hrest⟩ := Stream.fgetc_cons h
  have heq : getByte s = (c, { s with pos := s.pos + 1 }) := by rw [getByte, hget]; rfl
  exact ⟨heq, by rw [heq]; exact hrest⟩

theorem getByte_nil {s : Stream} (h : s.rest = []) : getByte s = (0xff, { s with feof := true }) := by
  rw [getByte, Stream.fgetc_nil h]
  rfl

theorem GetLong_word {s : Stream} {a b c d : UInt8} {tail : Bytes} (h : s.rest = a :: b :: c :: d :: tail) :
    GetLong s = (wordOf a b c d, { s with pos := s.pos + 4 }) := by
  obtain ⟨ha, hr⟩ := getByte_cons h
  rw [ha] at hr
  obtain ⟨hb, hr⟩ := getByte_cons hr
  rw [hb] at hr
  obtain ⟨hc, hr⟩ := getByte_cons hr
  rw [hc] at hr
  obtain ⟨hd, -⟩ := getByte_cons hr
  rw [GetLong, ha]
  dsimp only
  rw [hb]
  dsimp only
  rw [hc]
  dsimp only
  rw [hd]

theorem getByte_rest (s : Stream) : (getByte s).2.rest = s.rest.tail ∧ (getByte s).1 = s.rest.head?.getD 0xff ∧
    (getByte s).2.feof = (s.feof || s.rest.isEmpty) := by
  cases h : s.rest with
  | nil =>
    rw [getByte_nil h]
    exact ⟨h, rfl, (Bool.or_true _).symm⟩
  | cons c cs =>
    obtain ⟨hget, hrest⟩ := getByte_cons h
    refine ⟨hrest, by rw [hget]; rfl, ?_⟩
    rw [hget]
    exact (Bool.or_false _).symm

/-- A read that begins less than a word before the end sees bytes of `0xff`, and the end. -/
theorem GetLong_short {s : Stream} (h : s.rest.length < 4) :
    PutLong (GetLong s).1 = padded s.rest ∧ (GetLong s).2.feof = true := by
  obtain ⟨hr1, hv1, hf1⟩ := getByte_rest s
  obtain ⟨hr2, hv2, hf2⟩ := getByte_rest (getByte s).2
  obtain ⟨hr3, hv3, hf3⟩ := getByte_rest (getByte (getByte s).2).2
  obtain ⟨-, hv4, hf4⟩ := getByte_rest (getByte (getByte (getByte s).2).2).2
  rw [hr1] at hr2 hv2 hf2
  rw [hr2] at hr3 hv3 hf3
  rw [hr3] at hv4 hf4
  refine ⟨?_, ?_⟩
  · rw [GetLong]
    dsimp only
    rw [PutLong_wordOf, hv1, hv2, hv3, hv4]
    rcases hs : s.rest with _ | ⟨a, _ | ⟨b, _ | ⟨c, _ | ⟨d, tail⟩⟩⟩⟩
    · rfl
    · rfl
    · rfl
    · rfl
    · rw [hs] at h
      simp only [List.length_cons] at h
      omega
  · rw [GetLong]
    dsimp only
    rw [hf4]
    have hempty : s.rest.tail.tail.tail.isEmpty = true := by
      rw [List.isEmpty_iff, ← List.length_eq_zero_iff]
      simp only [List.length_tail]
      omega
    rw [hempty, Bool.or_true]

theorem rest_GetLong (s : Stream) : (GetLong s).2.rest = s.rest.drop 4 := by
  have h1 := (getByte_rest s).1
  have h2 := (getByte_rest (getByte s).2).1
  have h3 := (getByte_rest (getByte (getByte s).2).2).1
  have h4 := (getByte_rest (getByte (getByte (getByte s).2).2).2).1
  show (getByte (getByte (getByte (getByte s).2).2).2).2.rest = _
  rw [h4, h3, h2, h1]
  simp only [← List.drop_one, List.drop_drop]

theorem exists_word {bs : Bytes} (h : 4 ≤ bs.length) : ∃ a b c d tail, bs = a :: b :: c :: d :: tail := by
  obtain ⟨a, bs, rfl⟩ := List.exists_cons_of_length_pos (by omega : 0 < bs.length)
  rw [List.length_cons] at h
  obtain ⟨b, bs, rfl⟩ := List.exists_cons_of_length_pos (by omega : 0 < bs.length)
  rw [List.length_cons] at h
  obtain ⟨c, bs, rfl⟩ := List.exists_cons_of_length_pos (by omega : 0 < bs.length)
  rw [List.length_cons] at h
  obtain ⟨d, bs, rfl⟩ := List.exists_cons_of_length_pos (by omega : 0 < bs.length)
  exact ⟨a, b, c, d, bs, rfl⟩

theorem wordOf_PutLong (val : UInt32) : wordOf (val &&& 0xff).toUInt8 (val >>> 0x08 &&& 0xff).toUInt8
    (val >>> 0x10 &&& 0xff).toUInt8 (val >>> 0x18 &&& 0xff).toUInt8 = val := by
  rw [← UInt32.toNat_inj, toNat_wordOf]
  show ofLE (PutLong val) = _
  rw [PutLong_eq, ofLE_leBytes_of_lt val.toNat_lt]

/-- **A word that was written is read back.** -/
theorem GetLong_PutLong {s : Stream} {val : UInt32} {tail : Bytes} (h : s.rest = PutLong val ++ tail) :
    GetLong s = (val, { s with pos := s.pos + 4 }) := by
  have hword := GetLong_word h
  rwa [wordOf_PutLong] at hword

/-- The word that stands at a position of a file. -/
def wordAt (file : Bytes) (pos : ℕ) : ℕ := ofLE (readAt file pos 4)

theorem GetLong_at {file : Bytes} {pos : ℕ} (e : Bool) (h : pos + 4 ≤ file.length) :
    GetLong ⟨file, pos, e⟩ = (UInt32.ofNat (wordAt file pos), ⟨file, pos + 4, e⟩) := by
  obtain ⟨a, b, c, d, tail, hword⟩ := exists_word (by rw [List.length_drop]; omega : 4 ≤ (file.drop pos).length)
  have hval : wordAt file pos = (wordOf a b c d).toNat := by
    rw [wordAt, readAt, hword, toNat_wordOf]
    rfl
  rw [GetLong_word (s := ⟨file, pos, e⟩) hword, hval, UInt32.ofNat_toNat]

end GnuPoc.Genaif
