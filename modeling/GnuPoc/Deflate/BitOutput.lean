import GnuPoc.Deflate.Huffman
import GnuPoc.Lib.BitString
import GnuPoc.Lib.LittleEndian
import Mathlib.Data.PNat.Notation

/-!
# GnuPoc.Deflate.BitOutput — the bit stream that is written (`encode.cpp`)

The bits that do not fill a byte yet stand in the upper part of a word.  What has been written is the bytes that the
handlers of full buffers have taken, those in the buffer, and these bits.
-/

namespace GnuPoc.Deflate

open GnuPoc.Lib

/-! ### `TBitOutput` -/

structure TBitOutput where
  iCode : UInt32
  iBits : ℤ
  /-- What the calls of `OverflowL` have taken. -/
  taken : Bytes
  /-- What stands in the buffer. -/
  buffer : Bytes
  /-- `iEnd-iPtr`. -/
  room : ℕ
  /-- The sizes of the buffers that the next calls of `OverflowL` set. -/
  sizes : ℕ → ℕ+

namespace TBitOutput

/-- The constructor, over a buffer. -/
def new (aSize : ℕ) (sizes : ℕ → ℕ+) : TBitOutput := ⟨0, -8, [], [], aSize, sizes⟩

/-- A handler that takes the buffer and sets another one. -/
def OverflowL (o : TBitOutput) : TBitOutput :=
  { o with taken := o.taken ++ o.buffer, buffer := [], room := o.sizes 0, sizes := fun k => o.sizes (k + 1) }

/-- `*p++=aByte`, behind the test for the end of the buffer. -/
def store (o : TBitOutput) (aByte : UInt8) : TBitOutput :=
  let o := if o.room = 0 then o.OverflowL else o
  { o with buffer := o.buffer ++ [aByte], room := o.room - 1 }

/-- The loop of `DoWriteL`, which comes to at most four bytes. -/
def storeLoop : ℕ → UInt32 → ℤ → TBitOutput → TBitOutput
  | 0, code, bits, o => { o with iCode := code, iBits := bits }
  | n + 1, code, bits, o =>
    if 0 ≤ bits then storeLoop n (code <<< 8) (bits - 8) (o.store (code >>> 24).toUInt8)
    else { o with iCode := code, iBits := bits }

/-- `DoWriteL` of at most 25 bits. -/
def writePass (o : TBitOutput) (aBits : UInt32) (aSize : ℕ) : TBitOutput :=
  let code := o.iCode ||| aBits >>> UInt32.ofNat (o.iBits + 8).toNat
  storeLoop 4 code (o.iBits + aSize) o

def DoWriteL (o : TBitOutput) (aBits : UInt32) (aSize : ℕ) : TBitOutput :=
  if 25 < aSize then (o.writePass (aBits &&& 0xff000000) 8).writePass (aBits <<< 8) (aSize - 8)
  else o.writePass aBits aSize

def HuffmanL (o : TBitOutput) (aHuffCode : UInt32) : TBitOutput :=
  o.DoWriteL (aHuffCode <<< UInt32.ofNat (32 - KMaxCodeLength)) (aHuffCode >>> UInt32.ofNat KMaxCodeLength).toNat

def WriteL (o : TBitOutput) (aValue : UInt32) (aLength : ℕ) : TBitOutput :=
  if aLength = 0 then o else o.DoWriteL (aValue <<< UInt32.ofNat (32 - aLength)) aLength

def PadL (o : TBitOutput) (aPadding : UInt32) : TBitOutput :=
  if -8 < o.iBits then o.WriteL (if aPadding ≠ 0 then 0xffffffff else 0) (-o.iBits).toNat else o

/-- The bytes that have been written. -/
def bytes (o : TBitOutput) : Bytes := o.taken ++ o.buffer

end TBitOutput

/-- A call. -/
inductive Write
  | WriteL (aValue : UInt32) (aLength : ℕ)
  | HuffmanL (aHuffCode : UInt32)
  deriving DecidableEq

namespace Write

def length : Write → ℕ
  | WriteL _ aLength => aLength
  | HuffmanL aHuffCode => aHuffCode.toNat / 2 ^ KMaxCodeLength

/-- The low bits of the value; of a Huffman code, the code word. -/
def value : Write → ℕ
  | WriteL aValue aLength => aValue.toNat % 2 ^ aLength
  | HuffmanL aHuffCode =>
    aHuffCode.toNat % 2 ^ KMaxCodeLength / 2 ^ (KMaxCodeLength - aHuffCode.toNat / 2 ^ KMaxCodeLength)

/-- What the functions ask of their arguments: at most 32 bits, and a code as `Encoding` makes it, with nothing below
its word. -/
def Fits : Write → Prop
  | WriteL _ aLength => aLength ≤ 32
  | HuffmanL aHuffCode => aHuffCode.toNat / 2 ^ KMaxCodeLength ≤ KMaxCodeLength ∧
    2 ^ (KMaxCodeLength - aHuffCode.toNat / 2 ^ KMaxCodeLength) ∣ aHuffCode.toNat % 2 ^ KMaxCodeLength

instance (w : Write) : Decidable w.Fits := by
  cases w with
  | WriteL aValue aLength => exact inferInstanceAs (Decidable (aLength ≤ 32))
  | HuffmanL aHuffCode => exact inferInstanceAs (Decidable (_ ∧ _))

def perform (o : TBitOutput) : Write → TBitOutput
  | WriteL aValue aLength => o.WriteL aValue aLength
  | HuffmanL aHuffCode => o.HuffmanL aHuffCode

end Write

/-- The bytes of calls one behind the other, with `PadL` behind them. -/
def produced (o : TBitOutput) (writes : List Write) (aPadding : UInt32) : Bytes :=
  ((writes.foldl Write.perform o).PadL aPadding).bytes

/-! ### The bits that have been written -/

/-- The bits of bytes, from the first byte to the last. -/
def bitsOfBytes (bytes : Bytes) : List Bool := bytes.flatMap fun b => bitString 8 b.toNat

/-- A word with a number of `q` bits in its upper part and nothing below. -/
structure UpperBits (word : UInt32) (q v : ℕ) : Prop where
  le : q ≤ 32
  lt : v < 2 ^ q
  toNat : word.toNat = v * 2 ^ (32 - q)

/-- An output between two calls, and the bits written so far. -/
inductive Written (o : TBitOutput) (bits : List Bool) : Prop
  | intro (q v : ℕ) (hq : q < 8) (hbits : o.iBits = (q : ℤ) - 8) (hcode : UpperBits o.iCode q v)
    (hall : bits = bitsOfBytes o.bytes ++ bitString q v)

namespace TBitOutput

theorem bytes_store (o : TBitOutput) (b : UInt8) : (o.store b).bytes = o.bytes ++ [b] := by
  unfold store
  split
  · simp [bytes, OverflowL]
  · simp [bytes]

end TBitOutput

theorem bitsOfBytes_append (a b : Bytes) : bitsOfBytes (a ++ b) = bitsOfBytes a ++ bitsOfBytes b := List.flatMap_append

theorem bitsOfBytes_singleton (b : UInt8) : bitsOfBytes [b] = bitString 8 b.toNat := List.flatMap_singleton _ _

/-! ### One pass -/

theorem UpperBits.first {word : UInt32} {q v : ℕ} (h : UpperBits word (q + 8) v) :
    (word >>> 24).toUInt8.toNat = v / 2 ^ q ∧ UpperBits (word <<< 8) q (v % 2 ^ q) := by
  have hle := h.le
  have hlt : v / 2 ^ q < 256 := by
    rw [Nat.div_lt_iff_lt_mul (Nat.two_pow_pos q), show 256 = 2 ^ 8 from rfl, ← Nat.pow_add, Nat.add_comm]
    exact h.lt
  constructor
  · have hsplit : 2 ^ 24 = 2 ^ q * 2 ^ (32 - (q + 8)) := two_pow_split (by omega)
    have hshift : (word >>> 24).toNat = v / 2 ^ q := by
      rw [UInt32.toNat_shiftRight, h.toNat, Nat.shiftRight_eq_div_pow]
      change v * 2 ^ (32 - (q + 8)) / 2 ^ 24 = _
      rw [hsplit, Nat.mul_div_mul_right _ _ (Nat.two_pow_pos _)]
    rw [UInt32.toNat_toUInt8, hshift, Nat.mod_eq_of_lt hlt]
  · refine ⟨by omega, Nat.mod_lt _ (Nat.two_pow_pos q), ?_⟩
    have hsplit : 2 ^ 32 = 2 ^ q * 2 ^ (32 - q) := two_pow_split (by omega)
    have hmul : 2 ^ (32 - (q + 8)) * 2 ^ 8 = 2 ^ (32 - q) := (two_pow_split (by omega)).symm
    rw [UInt32.toNat_shiftLeft, h.toNat, Nat.shiftLeft_eq]
    change v * 2 ^ (32 - (q + 8)) * 2 ^ 8 % 2 ^ 32 = _
    rw [Nat.mul_assoc, hmul, hsplit, Nat.mul_mod_mul_right]

theorem storeLoop_written {n : ℕ} {code : UInt32} {q v : ℕ} (o : TBitOutput) (hcode : UpperBits code q v)
    (hn : q / 8 ≤ n) :
    Written (TBitOutput.storeLoop n code ((q : ℤ) - 8) o) (bitsOfBytes o.bytes ++ bitString q v) := by
  induction n generalizing code q v o with
  | zero => exact .intro q v (by omega) rfl hcode rfl
  | succ n ih =>
    rw [TBitOutput.storeLoop]
    split
    · next hpos =>
      obtain ⟨q, rfl⟩ : ∃ k, q = k + 8 := ⟨q - 8, by omega⟩
      obtain ⟨hbyte, hrest⟩ := hcode.first
      have hnext := ih (o.store (code >>> 24).toUInt8) hrest (by omega)
      have hbits : bitsOfBytes (o.store (code >>> 24).toUInt8).bytes ++ bitString q (v % 2 ^ q) =
          bitsOfBytes o.bytes ++ bitString (q + 8) v := by
        rw [TBitOutput.bytes_store, bitsOfBytes_append, bitsOfBytes_singleton, hbyte, List.append_assoc,
          bitString_mod le_rfl, ← bitString_add, Nat.add_comm]
      rw [hbits] at hnext
      convert hnext using 2
      omega
    · next hneg => exact .intro q v (by omega) rfl hcode rfl

theorem UpperBits.or {code word : UInt32} {p n u v : ℕ} (hcode : UpperBits code p u) (hword : UpperBits word n v)
    (h : p + n ≤ 32) (hp : p < 32) : UpperBits (code ||| word >>> UInt32.ofNat p) (p + n) (u * 2 ^ n + v) := by
  refine ⟨h, ?_, ?_⟩
  · have hu := hcode.lt
    have hv := hword.lt
    have hmul : (u + 1) * 2 ^ n ≤ 2 ^ p * 2 ^ n := Nat.mul_le_mul_right _ hu
    rw [Nat.pow_add]
    rw [Nat.add_mul, Nat.one_mul] at hmul
    omega
  · have hshift : (word >>> UInt32.ofNat p).toNat = v * 2 ^ (32 - (p + n)) := by
      have hsplit : 2 ^ (32 - n) = 2 ^ (32 - (p + n)) * 2 ^ p := two_pow_split (by omega)
      rw [UInt32.toNat_shiftRight, UInt32.toNat_ofNat_of_lt' (lt_trans hp (by decide)), Nat.mod_eq_of_lt hp,
        hword.toNat, Nat.shiftRight_eq_div_pow, hsplit, ← Nat.mul_assoc, Nat.mul_div_cancel _ (Nat.two_pow_pos p)]
    have hsplit : 2 ^ (32 - p) = 2 ^ n * 2 ^ (32 - (p + n)) := two_pow_split (by omega)
    have hlt : v * 2 ^ (32 - (p + n)) < 2 ^ (32 - p) := by
      rw [hsplit]
      exact (Nat.mul_lt_mul_right (Nat.two_pow_pos _)).mpr hword.lt
    rw [UInt32.toNat_or, hshift, hcode.toNat, ← Nat.shiftLeft_eq, ← Nat.shiftLeft_add_eq_or_of_lt hlt, Nat.shiftLeft_eq,
      hsplit, Nat.add_mul, Nat.mul_assoc]

theorem writePass_written {o : TBitOutput} {bits : List Bool} {aBits : UInt32} {n v : ℕ} (h : Written o bits)
    (hword : UpperBits aBits n v) (hn : n ≤ 25) : Written (o.writePass aBits n) (bits ++ bitString n v) := by
  obtain ⟨q, u, hq, hbits, hcode, rfl⟩ := h
  have hpending : (o.iBits + 8).toNat = q := by omega
  have hor := hcode.or hword (by omega) (by omega)
  have hrun := storeLoop_written (n := 4) o hor (by omega)
  rw [TBitOutput.writePass, hpending, hbits]
  rw [bitString_mul_add _ _ _ hword.lt, ← List.append_assoc] at hrun
  convert hrun using 2
  omega

/-! ### The calls -/

theorem toNat_and_upper (word : UInt32) : (word &&& 0xff000000).toNat = word.toNat / 2 ^ 24 * 2 ^ 24 := by
  rw [UInt32.toNat_and]
  apply Nat.eq_of_testBit_eq
  intro i
  rw [show (0xff000000 : UInt32).toNat = (2 ^ 8 - 1) * 2 ^ 24 from rfl, Nat.testBit_and, Nat.testBit_mul_two_pow,
    Nat.testBit_mul_two_pow, Nat.testBit_div_two_pow, Nat.testBit_two_pow_sub_one]
  by_cases hi : 24 ≤ i
  · by_cases hi' : i < 32
    · rw [decide_eq_true hi, decide_eq_true (show i - 24 < 8 by omega), Nat.sub_add_cancel hi, Bool.true_and,
        Bool.and_true, Bool.true_and]
    · rw [Nat.sub_add_cancel hi, Nat.testBit_lt_two_pow (lt_of_lt_of_le word.toNat_lt
        (Nat.pow_le_pow_right (by decide) (not_lt.mp hi'))), Bool.false_and, Bool.and_false]
  · rw [decide_eq_false hi, Bool.false_and, Bool.false_and, Bool.and_false]

theorem UpperBits.upper {word : UInt32} {q v : ℕ} (h : UpperBits word (q + 8) v) :
    UpperBits (word &&& 0xff000000) 8 (v / 2 ^ q) := by
  have hle := h.le
  have hsplit : 2 ^ 24 = 2 ^ q * 2 ^ (32 - (q + 8)) := two_pow_split (by omega)
  refine ⟨by decide, ?_, ?_⟩
  · rw [Nat.div_lt_iff_lt_mul (Nat.two_pow_pos q), ← Nat.pow_add, Nat.add_comm]
    exact h.lt
  · rw [toNat_and_upper, h.toNat]
    change v * 2 ^ (32 - (q + 8)) / 2 ^ 24 * 2 ^ 24 = v / 2 ^ q * 2 ^ 24
    rw [hsplit, Nat.mul_div_mul_right _ _ (Nat.two_pow_pos _)]

theorem upperBits_shiftLeft (word : UInt32) {n : ℕ} (hn : 0 < n) (hle : n ≤ 32) :
    UpperBits (word <<< UInt32.ofNat (32 - n)) n (word.toNat % 2 ^ n) := by
  have hsplit : 2 ^ 32 = 2 ^ n * 2 ^ (32 - n) := two_pow_split (by omega)
  refine ⟨hle, Nat.mod_lt _ (Nat.two_pow_pos n), ?_⟩
  rw [UInt32.toNat_shiftLeft, UInt32.toNat_ofNat_of_lt' (lt_of_le_of_lt (Nat.sub_le 32 n) (by decide)),
    Nat.mod_eq_of_lt (show 32 - n < 32 by omega), Nat.shiftLeft_eq]
  change word.toNat * 2 ^ (32 - n) % 2 ^ 32 = _
  rw [hsplit, Nat.mul_mod_mul_right]

section
variable {o : TBitOutput} {bits : List Bool}

theorem DoWriteL_written {aBits : UInt32} {n v : ℕ} (h : Written o bits) (hword : UpperBits aBits n v) :
    Written (o.DoWriteL aBits n) (bits ++ bitString n v) := by
  unfold TBitOutput.DoWriteL
  split
  · next hlong =>
    obtain ⟨q, rfl⟩ : ∃ q, n = q + 8 := ⟨n - 8, by omega⟩
    have hle := hword.le
    have hfirst := writePass_written h hword.upper (by omega)
    have hsecond := writePass_written hfirst hword.first.2 (by omega)
    rwa [List.append_assoc, bitString_mod le_rfl, ← bitString_add, Nat.add_comm 8 q] at hsecond
  · next hshort => exact writePass_written h hword (by omega)

theorem WriteL_written (h : Written o bits) (aValue : UInt32) {n : ℕ} (hn : n ≤ 32) :
    Written (o.WriteL aValue n) (bits ++ bitString n (aValue.toNat % 2 ^ n)) := by
  unfold TBitOutput.WriteL
  split
  · next hzero =>
    subst hzero
    rwa [bitString_zero, List.append_nil]
  · next hpos => exact DoWriteL_written h (upperBits_shiftLeft aValue (Nat.pos_of_ne_zero hpos) hn)

theorem HuffmanL_written (h : Written o bits) {aHuffCode : UInt32} (hfits : (Write.HuffmanL aHuffCode).Fits) :
    Written (o.HuffmanL aHuffCode)
      (bits ++ bitString (Write.HuffmanL aHuffCode).length (Write.HuffmanL aHuffCode).value) := by
  obtain ⟨hle, hdvd⟩ := hfits
  have hlen : (aHuffCode >>> UInt32.ofNat KMaxCodeLength).toNat = aHuffCode.toNat / 2 ^ KMaxCodeLength := by
    rw [UInt32.toNat_shiftRight, Nat.shiftRight_eq_div_pow]
    rfl
  have hword := upperBits_shiftLeft aHuffCode (n := KMaxCodeLength) (by decide) (by decide)
  rw [TBitOutput.HuffmanL, hlen]
  simp only [Write.length, Write.value]
  refine DoWriteL_written h ⟨le_trans hle (by decide), ?_, ?_⟩
  · rw [Nat.div_lt_iff_lt_mul (Nat.two_pow_pos _), ← Nat.pow_add, Nat.add_sub_cancel' hle]
    exact Nat.mod_lt _ (Nat.two_pow_pos _)
  · have hsplit : 2 ^ (32 - aHuffCode.toNat / 2 ^ KMaxCodeLength) =
        2 ^ (KMaxCodeLength - aHuffCode.toNat / 2 ^ KMaxCodeLength) * 2 ^ (32 - KMaxCodeLength) := by
      rw [← Nat.pow_add]
      congr 1
      have hmax : KMaxCodeLength = 27 := rfl
      omega
    rw [hword.toNat, hsplit, ← Nat.mul_assoc, Nat.div_mul_cancel hdvd]

theorem perform_written (h : Written o bits) {w : Write} (hfits : w.Fits) :
    Written (w.perform o) (bits ++ bitString w.length w.value) := by
  cases w with
  | WriteL aValue aLength => exact WriteL_written h aValue hfits
  | HuffmanL aHuffCode => exact HuffmanL_written h hfits

theorem foldl_perform_written (h : Written o bits) (writes : List Write) (hfits : ∀ w ∈ writes, w.Fits) :
    Written (writes.foldl Write.perform o) (bits ++ writes.flatMap fun w => bitString w.length w.value) := by
  induction writes generalizing o bits with
  | nil => rwa [List.flatMap_nil, List.append_nil]
  | cons w writes ih =>
    have hnext := ih (perform_written h (hfits w List.mem_cons_self))
      fun w' hw' => hfits w' (List.mem_cons_of_mem _ hw')
    rwa [List.append_assoc] at hnext

end

theorem length_bitsOfBytes (bytes : Bytes) : (bitsOfBytes bytes).length = 8 * bytes.length := by
  induction bytes with
  | nil => rfl
  | cons b bytes ih =>
    rw [← List.singleton_append, bitsOfBytes_append, bitsOfBytes_singleton, List.length_append, length_bitString, ih,
      List.length_append, List.length_singleton]
    omega

theorem Written.bytes {o : TBitOutput} {bits : List Bool} (h : Written o bits) (h8 : 8 ∣ bits.length) :
    bits = bitsOfBytes o.bytes := by
  obtain ⟨q, v, hq, -, -, rfl⟩ := h
  rw [List.length_append, length_bitsOfBytes, length_bitString] at h8
  obtain rfl : q = 0 := by omega
  rw [bitString_zero, List.append_nil]

theorem PadL_bytes {o : TBitOutput} {bits : List Bool} (h : Written o bits) (aPadding : UInt32) :
    ∃ padding : List Bool, padding.length < 8 ∧ bitsOfBytes (o.PadL aPadding).bytes = bits ++ padding := by
  obtain ⟨q, v, hq, hbits, hcode, hall⟩ := id h
  have hlen : bits.length = 8 * o.bytes.length + q := by
    rw [hall, List.length_append, length_bitsOfBytes, length_bitString]
  unfold TBitOutput.PadL
  split
  · next hpos =>
    have hpad : (-o.iBits).toNat = 8 - q := by omega
    rw [hpad]
    have hwritten := WriteL_written h (if aPadding ≠ 0 then 0xffffffff else 0) (show 8 - q ≤ 32 by omega)
    refine ⟨_, ?_, (hwritten.bytes ?_).symm⟩
    · rw [length_bitString]
      omega
    · rw [List.length_append, length_bitString, hlen]
      omega
  · next hzero =>
    refine ⟨[], by decide, ?_⟩
    rw [List.append_nil]
    exact (h.bytes (by omega)).symm

theorem bitsOfBytes_produced (aSize : ℕ) (sizes : ℕ → ℕ+) {writes : List Write} (hfits : ∀ w ∈ writes, w.Fits)
    (aPadding : UInt32) : ∃ padding : List Bool, padding.length < 8 ∧
      bitsOfBytes (produced (.new aSize sizes) writes aPadding) =
        (writes.flatMap fun w => bitString w.length w.value) ++ padding := by
  have hnew : Written (.new aSize sizes) [] := .intro 0 0 (by decide) rfl ⟨by decide, by decide, rfl⟩ rfl
  have hall := foldl_perform_written hnew writes hfits
  rw [List.nil_append] at hall
  exact PadL_bytes hall aPadding

end GnuPoc.Deflate
