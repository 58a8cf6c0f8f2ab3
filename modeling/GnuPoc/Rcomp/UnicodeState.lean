import GnuPoc.Rcomp.DataStream
import Mathlib.Data.Fin.VecNotation

/-!
# GnuPoc.Rcomp.UnicodeState — windows, tags and their meaning (`unicode_compressor.cpp`)

A code is a natural number below `2 ^ 16`.  `decode` reads bytes by the meaning of the tags, from single-byte
mode with window 0; the expansion area, which holds no 16-bit code, is refused.
-/

namespace GnuPoc.Rcomp

open GnuPoc.Lib

/-! ### Windows -/

def iStaticWindow : List ℕ := [0x0000, 0x0080, 0x0100, 0x0300, 0x2000, 0x2080, 0x2100, 0x3000]

def iDynamicWindowDefault : Fin 8 → ℕ := ![0x0080, 0x00C0, 0x0400, 0x0600, 0x0900, 0x3040, 0x30A0, 0xFF00]

/-- The window that is set for a code that none has. -/
def redefinedWindow : Fin 8 := 4

def iSpecialBase : List ℕ := [0x00C0, 0x0250, 0x0370, 0x0530, 0x3040, 0x30A0, 0xFF60]

/-- The code lies in the window at `base`. -/
def inWindow (aCode base : ℕ) : Bool := base ≤ aCode && aCode < base + 128

theorem inWindow_iff {aCode base : ℕ} : inWindow aCode base = true ↔ base ≤ aCode ∧ aCode < base + 128 := by
  simp [inWindow]

def KErrNotFound : ℤ := -1

/-- The static window that contains this code, if any. -/
def StaticWindowIndex (aCode : ℕ) : ℤ :=
  match iStaticWindow.findIdx? (inWindow aCode) with
  | some i => i
  | none => -1

/-- The index of a legal dynamic window for the code in the offset table. -/
def DynamicWindowOffsetIndex (aCode : ℕ) : ℤ :=
  if aCode < 0x0080 then KErrNotFound
  else if 0x3400 ≤ aCode ∧ aCode ≤ 0xDFFF then KErrNotFound
  else
    match iSpecialBase.findIdx? (inWindow aCode) with
    | some i => 0xF9 + i
    | none => ((if 0xE000 ≤ aCode then aCode - 0xAC00 else aCode) / 0x80 : ℕ)

/-- The base of the window at an offset index, 0 if that is illegal. -/
def DynamicWindowBase (aOffsetIndex : ℤ) : ℕ :=
  if 0xF9 ≤ aOffsetIndex ∧ aOffsetIndex ≤ 0xFF then iSpecialBase.getD (aOffsetIndex - 0xF9).toNat 0
  else if 0x01 ≤ aOffsetIndex ∧ aOffsetIndex ≤ 0x67 then aOffsetIndex.toNat * 0x80
  else if 0x68 ≤ aOffsetIndex ∧ aOffsetIndex ≤ 0xA7 then aOffsetIndex.toNat * 0x80 + 0xAC00
  else 0

def EncodeAsIs (aCode : ℕ) : Bool :=
  aCode == 0x0000 || aCode == 0x0009 || aCode == 0x000A || aCode == 0x000D || (0x0020 ≤ aCode && aCode ≤ 0x007F)

/-! ### Tags -/

def SQ0 : ℕ := 0x01
def SDX : ℕ := 0x0B
def SQU : ℕ := 0x0E
def SCU : ℕ := 0x0F
def SC0 : ℕ := 0x10
def SD0 : ℕ := 0x18
def UC0 : ℕ := 0xE0
def UD0 : ℕ := 0xE8
def UQU : ℕ := 0xF0
def UDX : ℕ := 0xF1

/-- What a reader of the bytes keeps: the mode, the dynamic windows, and which of them is the current one. -/
structure Reader where
  iUnicodeMode : Bool
  iDynamicWindow : Fin 8 → ℕ
  iDynamicWindowIndex : Fin 8

namespace Reader

/-- Single-byte mode, window 0. -/
def start : Reader := ⟨false, iDynamicWindowDefault, 0⟩

/-- The base of the current window. -/
def base (s : Reader) : ℕ := s.iDynamicWindow s.iDynamicWindowIndex

/-- Select dynamic window `i`, in single-byte mode. -/
def select (s : Reader) (i : ℕ) : Reader := ⟨false, s.iDynamicWindow, Fin.ofNat 8 i⟩

/-- Set the index of dynamic window `i`, and select it. -/
def define (s : Reader) (i index : ℕ) : Reader :=
  ⟨false, Function.update s.iDynamicWindow (Fin.ofNat 8 i) (DynamicWindowBase index), Fin.ofNat 8 i⟩

/-- A byte quoted from window `i`: static for a low byte, dynamic for a high one. -/
def quoted (s : Reader) (i byte : ℕ) : ℕ :=
  if byte < 0x80 then iStaticWindow.getD i 0 + byte else s.iDynamicWindow (Fin.ofNat 8 i) + (byte - 0x80)

end Reader

/-- The code of a high and a low byte. -/
def unicodeValue (hbyte lbyte : UInt8) : UInt16 := UInt16.ofNat (hbyte.toNat * 0x100 + lbyte.toNat)

/-- The codes that bytes stand for. -/
def decode : Reader → Bytes → Option (List UInt16)
  | _, [] => some []
  | s, b :: rest =>
    let byte := b.toNat
    if s.iUnicodeMode then
      if UC0 ≤ byte ∧ byte < UD0 then decode (s.select (byte - UC0)) rest
      else if UD0 ≤ byte ∧ byte < UQU then
        match rest with
        | index :: rest => decode (s.define (byte - UD0) index.toNat) rest
        | [] => none
      else if byte = UQU then
        match rest with
        | hbyte :: lbyte :: rest => (decode s rest).map (unicodeValue hbyte lbyte :: ·)
        | _ => none
      else if byte = UDX ∨ byte = 0xF2 then none
      else
        match rest with
        | lbyte :: rest => (decode s rest).map (unicodeValue b lbyte :: ·)
        | [] => none
    else if EncodeAsIs byte then (decode s rest).map (UInt16.ofNat byte :: ·)
    else if 0x80 ≤ byte then (decode s rest).map (UInt16.ofNat (s.base + (byte - 0x80)) :: ·)
    else if SQ0 ≤ byte ∧ byte < SQ0 + 8 then
      match rest with
      | c :: rest => (decode s rest).map (UInt16.ofNat (s.quoted (byte - SQ0) c.toNat) :: ·)
      | [] => none
    else if byte = SQU then
      match rest with
      | hbyte :: lbyte :: rest => (decode s rest).map (unicodeValue hbyte lbyte :: ·)
      | _ => none
    else if byte = SCU then decode { s with iUnicodeMode := true } rest
    else if SC0 ≤ byte ∧ byte < SD0 then decode (s.select (byte - SC0)) rest
    else if SD0 ≤ byte ∧ byte < 0x20 then
      match rest with
      | index :: rest => decode (s.define (byte - SD0) index.toNat) rest
      | [] => none
    else none

theorem decode_byte {s : Reader} (hmode : s.iUnicodeMode = false) (b : UInt8) (rest : Bytes) :
    decode s (b :: rest) =
      if EncodeAsIs b.toNat then (decode s rest).map (UInt16.ofNat b.toNat :: ·)
      else if 0x80 ≤ b.toNat then (decode s rest).map (UInt16.ofNat (s.base + (b.toNat - 0x80)) :: ·)
      else if SQ0 ≤ b.toNat ∧ b.toNat < SQ0 + 8 then
        match rest with
        | c :: rest => (decode s rest).map (UInt16.ofNat (s.quoted (b.toNat - SQ0) c.toNat) :: ·)
        | [] => none
      else if b.toNat = SQU then
        match rest with
        | hbyte :: lbyte :: rest => (decode s rest).map (unicodeValue hbyte lbyte :: ·)
        | _ => none
      else if b.toNat = SCU then decode { s with iUnicodeMode := true } rest
      else if SC0 ≤ b.toNat ∧ b.toNat < SD0 then decode (s.select (b.toNat - SC0)) rest
      else if SD0 ≤ b.toNat ∧ b.toNat < 0x20 then
        match rest with
        | index :: rest => decode (s.define (b.toNat - SD0) index.toNat) rest
        | [] => none
      else none := by
  rw [decode.eq_def]
  simp only [hmode, Bool.false_eq_true, if_false]
  rfl

theorem decode_unicodeByte {s : Reader} (hmode : s.iUnicodeMode = true) (b : UInt8) (rest : Bytes) :
    decode s (b :: rest) =
      if UC0 ≤ b.toNat ∧ b.toNat < UD0 then decode (s.select (b.toNat - UC0)) rest
      else if UD0 ≤ b.toNat ∧ b.toNat < UQU then
        match rest with
        | index :: rest => decode (s.define (b.toNat - UD0) index.toNat) rest
        | [] => none
      else if b.toNat = UQU then
        match rest with
        | hbyte :: lbyte :: rest => (decode s rest).map (unicodeValue hbyte lbyte :: ·)
        | _ => none
      else if b.toNat = UDX ∨ b.toNat = 0xF2 then none
      else
        match rest with
        | lbyte :: rest => (decode s rest).map (unicodeValue b lbyte :: ·)
        | [] => none := by
  rw [decode.eq_def]
  simp only [hmode, if_true]
  rfl

/-! ### What bytes mean -/

/-- The bytes stand for the codes, and leave the reader at `s'`. -/
def Means (s : Reader) (bytes : Bytes) (codes : List UInt16) (s' : Reader) : Prop :=
  ∀ rest, decode s (bytes ++ rest) = (decode s' rest).map (codes ++ ·)

theorem Means.nil (s : Reader) : Means s [] [] s := by
  intro rest
  show decode s rest = (decode s rest).map id
  rw [Option.map_id]
  rfl

theorem Means.trans {s s' s'' : Reader} {a b : Bytes} {v w : List UInt16} (h : Means s a v s')
    (h' : Means s' b w s'') : Means s (a ++ b) (v ++ w) s'' := by
  intro rest
  rw [List.append_assoc, h, h', Option.map_map]
  congr 1
  funext codes
  exact (List.append_assoc v w codes).symm

theorem Means.decode_eq {s s' : Reader} {bytes : Bytes} {codes : List UInt16} (h : Means s bytes codes s') :
    decode s bytes = some codes := by
  have hall := h []
  rw [List.append_nil] at hall
  rw [hall, decode, Option.map_some, List.append_nil]

theorem toNat_byte {n : ℕ} (h : n < 256) : (UInt8.ofNat n).toNat = n := by
  rw [UInt8.toNat_ofNat', Nat.mod_eq_of_lt h]

theorem unicodeValue_toNat (code : UInt16) :
    unicodeValue (UInt8.ofNat (code.toNat / 0x100)) (UInt8.ofNat (code.toNat % 0x100)) = code := by
  have hlt := code.toNat_lt
  rw [unicodeValue, toNat_byte (by omega), toNat_byte (by omega), Nat.div_add_mod', UInt16.ofNat_toNat]

theorem encodeAsIs_iff {aCode : ℕ} : EncodeAsIs aCode = true ↔
    aCode = 0 ∨ aCode = 9 ∨ aCode = 10 ∨ aCode = 13 ∨ 0x20 ≤ aCode ∧ aCode ≤ 0x7F := by
  simp only [EncodeAsIs, Bool.or_eq_true, Bool.and_eq_true, beq_iff_eq, decide_eq_true_eq]
  omega

theorem not_encodeAsIs {aCode : ℕ} (h : 0x7F < aCode ∨ 0 < aCode ∧ aCode < 9 ∨ 13 < aCode ∧ aCode < 0x20) :
    ¬EncodeAsIs aCode = true := by
  rw [encodeAsIs_iff]
  omega

section
variable {s : Reader}

theorem means_plain (hmode : s.iUnicodeMode = false) {code : UInt16} (h : EncodeAsIs code.toNat = true) :
    Means s [UInt8.ofNat code.toNat] [code] s := by
  intro rest
  have hlt : code.toNat < 256 := by
    rw [encodeAsIs_iff] at h
    omega
  rw [List.singleton_append, decode_byte hmode]
  simp only [toNat_byte hlt, if_pos h, UInt16.ofNat_toNat]
  rfl

theorem means_window (hmode : s.iUnicodeMode = false) {code : UInt16} (h : s.base ≤ code.toNat)
    (hlt : code.toNat < s.base + 128) : Means s [UInt8.ofNat (code.toNat - s.base + 0x80)] [code] s := by
  intro rest
  have hcode : s.base + (code.toNat - s.base + 0x80 - 0x80) = code.toNat := by omega
  rw [List.singleton_append, decode_byte hmode]
  simp only [toNat_byte (show code.toNat - s.base + 0x80 < 256 by omega)]
  rw [if_neg (not_encodeAsIs (by omega)), if_pos (by omega), hcode, UInt16.ofNat_toNat]
  rfl

theorem means_quote (hmode : s.iUnicodeMode = false) {code : UInt16} {i byte : ℕ} (hi : i < 8) (hbyte : byte < 256)
    (h : s.quoted i byte = code.toNat) : Means s [UInt8.ofNat (SQ0 + i), UInt8.ofNat byte] [code] s := by
  intro rest
  rw [List.cons_append, List.singleton_append, decode_byte hmode]
  simp only [toNat_byte hbyte, toNat_byte (show SQ0 + i < 256 by unfold SQ0; omega),
    Nat.add_sub_cancel_left, h, UInt16.ofNat_toNat]
  unfold SQ0
  rw [if_neg (not_encodeAsIs (by omega)), if_neg (by omega), if_pos (by omega)]
  rfl

theorem means_quoteUnicode (hmode : s.iUnicodeMode = false) (code : UInt16) :
    Means s [UInt8.ofNat SQU, UInt8.ofNat (code.toNat / 0x100), UInt8.ofNat (code.toNat % 0x100)] [code] s := by
  intro rest
  rw [List.cons_append, List.cons_append, List.singleton_append, decode_byte hmode]
  simp only [unicodeValue_toNat]
  rfl

theorem means_unicode (hmode : s.iUnicodeMode = true) {code : UInt16}
    (h : code.toNat < 0xE000 ∨ 0xF2FF < code.toNat) :
    Means s [UInt8.ofNat (code.toNat / 0x100), UInt8.ofNat (code.toNat % 0x100)] [code] s := by
  intro rest
  have hlt := code.toNat_lt
  have hbyte : code.toNat / 0x100 < 0xE0 ∨ 0xF2 < code.toNat / 0x100 := by omega
  rw [List.cons_append, List.singleton_append, decode_unicodeByte hmode]
  simp only [toNat_byte (show code.toNat / 0x100 < 256 by omega), unicodeValue_toNat]
  unfold UC0 UD0 UQU UDX
  rw [if_neg (by omega), if_neg (by omega), if_neg (by omega), if_neg (by omega)]
  rfl

theorem means_unicodeQuote (hmode : s.iUnicodeMode = true) (code : UInt16) :
    Means s [UInt8.ofNat UQU, UInt8.ofNat (code.toNat / 0x100), UInt8.ofNat (code.toNat % 0x100)] [code] s := by
  intro rest
  rw [List.cons_append, List.cons_append, List.singleton_append, decode_unicodeByte hmode]
  simp only [unicodeValue_toNat]
  rfl

theorem means_unicodeMode (hmode : s.iUnicodeMode = false) :
    Means s [UInt8.ofNat SCU] [] { s with iUnicodeMode := true } := by
  intro rest
  rw [List.singleton_append, decode_byte hmode]
  exact Option.map_id'.symm

/-- Select window `i`, from either mode. -/
theorem means_select {i : ℕ} (hi : i < 8) :
    Means s [UInt8.ofNat ((if s.iUnicodeMode then UC0 else SC0) + i)] [] (s.select i) := by
  intro rest
  have hrest : (decode (s.select i) rest).map ([] ++ ·) = decode (s.select i) rest := Option.map_id'
  rw [List.singleton_append, hrest]
  by_cases hmode : s.iUnicodeMode = true
  · rw [decode_unicodeByte hmode]
    simp only [hmode, if_true, toNat_byte (show UC0 + i < 256 by unfold UC0; omega), Nat.add_sub_cancel_left]
    unfold UC0 UD0
    rw [if_pos (by omega)]
  · rw [decode_byte (Bool.eq_false_iff.mpr hmode)]
    simp only [hmode, Bool.false_eq_true, if_false, toNat_byte (show SC0 + i < 256 by unfold SC0; omega),
      Nat.add_sub_cancel_left]
    unfold SC0 SQ0 SQU SCU SD0
    rw [if_neg (not_encodeAsIs (by omega)), if_neg (by omega), if_neg (by omega), if_neg (by omega),
      if_neg (by omega), if_pos (by omega)]

/-- Set the index of window `i` and select it, from either mode. -/
theorem means_define {i index : ℕ} (hi : i < 8) (hindex : index < 256) :
    Means s [UInt8.ofNat ((if s.iUnicodeMode then UD0 else SD0) + i), UInt8.ofNat index] [] (s.define i index) := by
  intro rest
  have hrest : (decode (s.define i index) rest).map ([] ++ ·) = decode (s.define i index) rest := Option.map_id'
  rw [List.cons_append, List.singleton_append, hrest]
  by_cases hmode : s.iUnicodeMode = true
  · rw [decode_unicodeByte hmode]
    simp only [hmode, if_true, toNat_byte (show UD0 + i < 256 by unfold UD0; omega), toNat_byte hindex,
      Nat.add_sub_cancel_left]
    unfold UC0 UD0 UQU
    rw [if_neg (by omega), if_pos (by omega)]
  · rw [decode_byte (Bool.eq_false_iff.mpr hmode)]
    simp only [hmode, Bool.false_eq_true, if_false, toNat_byte (show SD0 + i < 256 by unfold SD0; omega),
      toNat_byte hindex, Nat.add_sub_cancel_left]
    unfold SD0 SQ0 SQU SCU SC0
    rw [if_neg (not_encodeAsIs (by omega)), if_neg (by omega), if_neg (by omega), if_neg (by omega),
      if_neg (by omega), if_neg (by omega), if_pos (by omega)]

end

end GnuPoc.Rcomp
