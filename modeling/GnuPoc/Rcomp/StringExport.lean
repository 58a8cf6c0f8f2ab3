import GnuPoc.Rcomp.DataStream
import Mathlib.Data.List.GetD
import Mathlib.Data.List.TakeWhile

/-!
# GnuPoc.Rcomp.StringExport — string expressions and their 16-bit text (`rcomp.y`, `astring.cpp`, `ccodes.cpp`)

A string expression is put together as a string of bytes, in which the code of a character is UTF-8, behind an escape byte
where the source is CP1252.  `Export` makes 16-bit characters of it, `ExportLength` counts them.  Strings are their bytes in
front of the terminating zero; an element of the buffer that `Export` does not write is `none`.
-/

namespace GnuPoc.Rcomp

open GnuPoc.Lib

/-- `String::CharacterSet`. -/
inductive CharacterSet
  | UNKNOWN | ASCII | CP1252 | CP850 | ISOLatin1 | ShiftJIS | Unicode | UTF8
  deriving DecidableEq, Repr

def UnicodeEscape : UInt8 := 0x81

/-! ### The expression -/

/-- The bytes up to a zero. -/
def cString (bytes : Bytes) : Bytes := bytes.takeWhile fun b => b ≠ 0

/-- `asUTF8`, for a number that is not negative. -/
def asUTF8 (aUnicode : ℕ) : Bytes :=
  if aUnicode &&& 0xff80 = 0 then [UInt8.ofNat aUnicode]
  else if aUnicode &&& 0xf800 = 0 then [UInt8.ofNat (0xc0 ||| aUnicode >>> 6), UInt8.ofNat (0x80 ||| aUnicode &&& 0x3f)]
  else
    [UInt8.ofNat (0xe0 ||| aUnicode >>> 12), UInt8.ofNat (0x80 ||| (aUnicode >>> 6) &&& 0x3f),
      UInt8.ofNat (0x80 ||| aUnicode &&& 0x3f)]

def character_code_expression (TargetCharacterSet SourceCharacterSet : CharacterSet) (n : ℤ) : Run Bytes :=
  if n < 0 ∨ (255 < n ∧ TargetCharacterSet ≠ .Unicode) then .error (.exits 1)
  else if 0xffff < n then .error (.exits 1)
  else if TargetCharacterSet ≠ .Unicode then .ok (cString [UInt8.ofNat n.toNat])
  else if SourceCharacterSet = .CP1252 then .ok (cString (UnicodeEscape :: asUTF8 n.toNat))
  else if SourceCharacterSet = .UTF8 then .ok (cString (asUTF8 n.toNat))
  else .ok (cString [UInt8.ofNat n.toNat])

/-- `string_expression_item`; the token of a literal has no zero byte. -/
inductive StringItem
  | literal (chars : Bytes) (h : 0 ∉ chars)
  | code (n : ℤ)

def StringItem.value (TargetCharacterSet SourceCharacterSet : CharacterSet) : StringItem → Run Bytes
  | .literal chars _ => .ok chars
  | .code n => character_code_expression TargetCharacterSet SourceCharacterSet n

/-- `string_expression`: an item and what stands behind it; `sizeof($$)` is 1024. -/
def string_expression (TargetCharacterSet SourceCharacterSet : CharacterSet) : StringItem → List StringItem → Run Bytes
  | item, [] => item.value TargetCharacterSet SourceCharacterSet
  | item, next :: rest => do
    let front ← item.value TargetCharacterSet SourceCharacterSet
    let back ← string_expression TargetCharacterSet SourceCharacterSet next rest
    if 1024 - 1 < front.length + back.length then .error (.exits 1) else .ok (front ++ back)

/-! ### `Export` -/

def cp1252_exceptions : List UInt16 :=
  [0x20AC, 0xFFFE, 0x201A, 0x0192, 0x201E, 0x2026, 0x2020, 0x2021, 0x02C6, 0x2030, 0x0160, 0x2039, 0x0152, 0xFFFE, 0x017D,
    0xFFFE, 0xFFFE, 0x2018, 0x2019, 0x201C, 0x201D, 0x2022, 0x2013, 0x2014, 0x02DC, 0x2122, 0x0161, 0x203A, 0x0153, 0xFFFE,
    0x017E, 0x0178]

/-- `CP1252_exceptions.map` on what is in the buffer. -/
def mapException (c : UInt16) : UInt16 :=
  if c < 255 ∧ 128 ≤ c ∧ c ≤ 159 then cp1252_exceptions.getD (c.toNat - 128) c else c

/-- `(utfByte&0xc0)==0x80`, for a byte of the string or the zero behind it. -/
def continues (bytes : Bytes) (i : ℕ) : Bool := (bytes.getD i 0).toNat &&& 0xc0 = 0x80

/-- `utfByte&0x3f`. -/
def lowBits (bytes : Bytes) (i : ℕ) : ℕ := (bytes.getD i 0).toNat &&& 0x3f

/-- `getUTF8`: the character, and how far the index goes.  The pointer goes on behind a byte that does not fit. -/
def getUTF8 (bytes : Bytes) : UInt16 × ℕ :=
  let utfByte := (bytes.getD 0 0).toNat
  if utfByte &&& 0xe0 = 0xc0 then
    if 1 < bytes.length ∧ continues bytes 1 then (UInt16.ofNat ((utfByte &&& 0x1f) <<< 6 ||| lowBits bytes 1), 2)
    else (UInt16.ofNat ((utfByte &&& 0x1f) <<< 6), 1)
  else if utfByte &&& 0xf0 = 0xe0 then
    let (unicodeChar, index) :=
      if 1 < bytes.length ∧ continues bytes 1 then ((utfByte &&& 0x0f) <<< 12 ||| lowBits bytes 1 <<< 6, 2)
      else ((utfByte &&& 0x0f) <<< 12, 1)
    if index < bytes.length ∧ continues bytes 2 then (UInt16.ofNat (unicodeChar ||| lowBits bytes 2), index + 1)
    else (UInt16.ofNat unicodeChar, index)
  else (UInt16.ofNat utfByte, 1)

/-- A turn of the loop of `Export`: what is written, and the bytes behind the index. -/
def exportChar (fromchset : CharacterSet) (bytes : Bytes) : Option UInt16 × Bytes :=
  if fromchset = .CP1252 then
    if bytes.getD 0 0 = UnicodeEscape then
      if bytes.length ≤ 1 then (none, [])
      else (some (mapException (getUTF8 bytes.tail).1), bytes.tail.drop (getUTF8 bytes.tail).2)
    else (some (mapException (bytes.getD 0 0).toUInt16), bytes.tail)
  else if fromchset = .UTF8 then (some (getUTF8 bytes).1, bytes.drop (getUTF8 bytes).2)
  else (some (bytes.getD 0 0).toUInt16, bytes.tail)

/-- The loop, with the room that is left in the buffer: what is written, and the bytes that are left. -/
def exportLoop (fromchset : CharacterSet) : ℕ → Bytes → List (Option UInt16) × Bytes
  | 0, bytes => ([], bytes)
  | _ + 1, [] => ([], [])
  | room + 1, b :: bytes =>
    let (c, rest) := exportChar fromchset (b :: bytes)
    let (cs, left) := exportLoop fromchset room rest
    (c :: cs, left)

/-- `Export` into a buffer of `length` characters; the text has not been truncated. -/
def Export (s : Bytes) (length : ℕ) (fromchset : CharacterSet) : List (Option UInt16) × Bool :=
  let (cs, left) := exportLoop fromchset length s
  (cs, left = [])

/-- A turn of the loop of `ExportLength`. -/
def skipChar (fromchset : CharacterSet) (bytes : Bytes) : Bytes :=
  if fromchset = .CP1252 then
    if bytes.getD 0 0 = UnicodeEscape then
      if bytes.length ≤ 1 then [] else bytes.tail.drop (getUTF8 bytes.tail).2
    else bytes.tail
  else bytes.drop (getUTF8 bytes).2

def lengthLoop (fromchset : CharacterSet) : ℕ → Bytes → ℕ
  | 0, _ => 0
  | _ + 1, [] => 0
  | fuel + 1, b :: bytes => lengthLoop fromchset fuel (skipChar fromchset (b :: bytes)) + 1

def ExportLength (s : Bytes) (tochset fromchset : CharacterSet) : ℕ :=
  if tochset ≠ .Unicode then s.length
  else if fromchset = .CP1252 ∨ fromchset = .UTF8 then lengthLoop fromchset s.length s
  else s.length

/-! ### What the text should be -/

/-- The bytes of a literal stand for these characters: by the table of CP1252, or as the UTF-8 of them. -/
def LiteralText (fromchset : CharacterSet) (chars : Bytes) (text : List UInt16) : Prop :=
  if fromchset = .CP1252 then text = chars.map fun b => mapException b.toUInt16
  else chars = text.flatMap fun c => asUTF8 c.toNat

/-- The text of an item; a character code is its own character. -/
def StringItem.Text (fromchset : CharacterSet) : StringItem → List UInt16 → Prop
  | .literal chars _, text => LiteralText fromchset chars text
  | .code n, text => text = [UInt16.ofNat n.toNat]

/-- `Export` writes the texts of the items one behind the other wherever there is room for all bytes, and `ExportLength` is
the number of characters. -/
def Exported (fromchset : CharacterSet) (items : List StringItem) (s : Bytes) : Prop :=
  ∃ texts, List.Forall₂ (StringItem.Text fromchset) items texts ∧
    ∀ room, s.length ≤ room → Export s room fromchset = (texts.flatten.map some, true) ∧
      ExportLength s .Unicode fromchset = texts.flatten.length

/-- 0x80 to 0x9F are no characters of a CP1252 source. -/
def StringItem.InDomain (fromchset : CharacterSet) : StringItem → Prop
  | .literal _ _ => True
  | .code n => 0 ≤ n ∧ n ≤ 0xffff ∧ (fromchset = .CP1252 → n < 0x80 ∨ 0x9f < n)

/-- A literal without the escape byte, or in UTF-8; a code that is not 0. -/
def StringItem.Fits (fromchset : CharacterSet) : StringItem → Prop
  | .literal chars _ => if fromchset = .CP1252 then UnicodeEscape ∉ chars else ∃ text, LiteralText fromchset chars text
  | .code n => n ≠ 0

/-- A literal without the escape byte and without the bytes that are decoded to the character 0, `À` and `à`. -/
def StringItem.Clear : StringItem → Prop
  | .literal chars _ => UnicodeEscape ∉ chars ∧ 0xC0 ∉ chars ∧ 0xE0 ∉ chars
  | .code _ => True

/-- What the item adds to the string. -/
def StringItem.bytes (SourceCharacterSet : CharacterSet) : StringItem → Bytes
  | .literal chars _ => chars
  | .code n => if SourceCharacterSet = .CP1252 then UnicodeEscape :: cString (asUTF8 n.toNat) else cString (asUTF8 n.toNat)

/-! ### UTF-8 of one character -/

theorem and_high_eq_zero {n hi lo k : ℕ} (hn : n < 65536) (hor : hi ||| lo = 0xffff) (hand : lo &&& hi = 0)
    (hlo : lo = 2 ^ k - 1) : n &&& hi = 0 ↔ n < 2 ^ k := by
  have hlow : n &&& lo = n % 2 ^ k := by rw [hlo, Nat.and_two_pow_sub_one_eq_mod]
  have hall : n &&& 0xffff = n := (Nat.and_two_pow_sub_one_eq_mod n 16).trans (Nat.mod_eq_of_lt hn)
  have hsplit : n = (n &&& hi) ||| (n % 2 ^ k) := by rw [← hlow, ← Nat.and_or_distrib_left, hor, hall]
  constructor
  · intro h
    rw [h, Nat.zero_or] at hsplit
    rw [hsplit]
    exact Nat.mod_lt _ (Nat.two_pow_pos k)
  · intro h
    have hself : n &&& lo = n := hlow.trans (Nat.mod_eq_of_lt h)
    rw [← hself, Nat.and_assoc, hand, Nat.and_zero]

theorem lead_two : ∀ k < 32, (0xc0 ||| k) < 256 ∧ (0xc0 ||| k) &&& 0xe0 = 0xc0 ∧ (0xc0 ||| k) &&& 0x1f = k := by decide

theorem lead_three : ∀ k < 16, (0xe0 ||| k) < 256 ∧ (0xe0 ||| k) &&& 0xe0 ≠ 0xc0 ∧ (0xe0 ||| k) &&& 0xf0 = 0xe0 ∧
    (0xe0 ||| k) &&& 0x0f = k := by decide

theorem trail : ∀ k < 64, (0x80 ||| k) < 256 ∧ (0x80 ||| k) &&& 0xc0 = 0x80 ∧ (0x80 ||| k) &&& 0x3f = k := by decide

theorem plain : ∀ k < 128, k &&& 0xe0 ≠ 0xc0 ∧ k &&& 0xf0 ≠ 0xe0 := by decide

theorem joined {k l : ℕ} (hl : l < 64) : k <<< 6 ||| l = k * 64 + l := by
  rw [← Nat.shiftLeft_add_eq_or_of_lt hl, Nat.shiftLeft_eq]

theorem joined_three (n : ℕ) : (n / 4096) <<< 12 ||| (n / 64 % 64) <<< 6 ||| n % 64 = n := by
  have hshift : (n / 4096) <<< 12 = ((n / 4096) <<< 6) <<< 6 := (Nat.shiftLeft_add (n / 4096) 6 6)
  rw [hshift, ← Nat.shiftLeft_or_distrib, joined (Nat.mod_lt _ (by decide)), joined (Nat.mod_lt _ (by decide))]
  omega

theorem getUTF8_asUTF8 {n : ℕ} (hn : n < 65536) (rest : Bytes) :
    getUTF8 (asUTF8 n ++ rest) = (UInt16.ofNat n, (asUTF8 n).length) := by
  have hlow : n &&& 0x3f = n % 64 := Nat.and_two_pow_sub_one_eq_mod n 6
  obtain ⟨htrail, hcont, hbits⟩ := trail (n % 64) (Nat.mod_lt _ (by decide))
  rw [asUTF8, hlow]
  by_cases hone : n &&& 0xff80 = 0
  · have hsmall : n < 128 := (and_high_eq_zero (k := 7) hn rfl rfl rfl).mp hone
    obtain ⟨htwo, hthree⟩ := plain n hsmall
    rw [if_pos hone, getUTF8, List.singleton_append, List.getD_cons_zero,
      UInt8.toNat_ofNat_of_lt' (show _ < 256 by omega), if_neg htwo, if_neg hthree]
    rfl
  rw [if_neg hone]
  by_cases htwo : n &&& 0xf800 = 0
  · have hsmall : n < 2048 := (and_high_eq_zero (k := 11) hn rfl rfl rfl).mp htwo
    have hshift : n >>> 6 = n / 64 := Nat.shiftRight_eq_div_pow n 6
    obtain ⟨hlead, hmask, hvalue⟩ := lead_two (n / 64) (by omega)
    have hbyte : continues (UInt8.ofNat (0xc0 ||| n / 64) :: UInt8.ofNat (0x80 ||| n % 64) :: rest) 1 = true := by
      rw [continues, List.getD_cons_succ, List.getD_cons_zero, UInt8.toNat_ofNat_of_lt' htrail, hcont]
      rfl
    rw [if_pos htwo, hshift]
    show getUTF8 (UInt8.ofNat (0xc0 ||| n / 64) :: UInt8.ofNat (0x80 ||| n % 64) :: rest) = _
    rw [getUTF8, List.getD_cons_zero, UInt8.toNat_ofNat_of_lt' hlead, if_pos hmask, hbyte, if_pos ⟨by simp, rfl⟩, lowBits,
      List.getD_cons_succ, List.getD_cons_zero, UInt8.toNat_ofNat_of_lt' htrail, hvalue, hbits, joined (Nat.mod_lt _ (by decide)),
      Nat.div_add_mod']
    rfl
  · have hshift : n >>> 12 = n / 4096 := Nat.shiftRight_eq_div_pow n 12
    have hmiddle : (n >>> 6) &&& 0x3f = n / 64 % 64 := by
      rw [Nat.shiftRight_eq_div_pow]
      exact Nat.and_two_pow_sub_one_eq_mod (n / 64) 6
    obtain ⟨hlead, hnot, hmask, hvalue⟩ := lead_three (n / 4096) (by omega)
    obtain ⟨htrail', hcont', hbits'⟩ := trail (n / 64 % 64) (Nat.mod_lt _ (by decide))
    have hbyte : continues (UInt8.ofNat (0xe0 ||| n / 4096) :: UInt8.ofNat (0x80 ||| n / 64 % 64) ::
        UInt8.ofNat (0x80 ||| n % 64) :: rest) 1 = true := by
      rw [continues, List.getD_cons_succ, List.getD_cons_zero, UInt8.toNat_ofNat_of_lt' htrail', hcont']
      rfl
    have hbyte' : continues (UInt8.ofNat (0xe0 ||| n / 4096) :: UInt8.ofNat (0x80 ||| n / 64 % 64) ::
        UInt8.ofNat (0x80 ||| n % 64) :: rest) 2 = true := by
      rw [continues, List.getD_cons_succ, List.getD_cons_succ, List.getD_cons_zero, UInt8.toNat_ofNat_of_lt' htrail, hcont]
      rfl
    rw [if_neg htwo, hshift, hmiddle]
    show getUTF8 (UInt8.ofNat (0xe0 ||| n / 4096) :: UInt8.ofNat (0x80 ||| n / 64 % 64) ::
      UInt8.ofNat (0x80 ||| n % 64) :: rest) = _
    rw [getUTF8, List.getD_cons_zero, UInt8.toNat_ofNat_of_lt' hlead, if_neg hnot, if_pos hmask, hbyte, hbyte', if_pos ⟨by simp, rfl⟩]
    dsimp only
    rw [if_pos ⟨by simp, rfl⟩, lowBits, lowBits, List.getD_cons_succ, List.getD_cons_zero, List.getD_cons_succ,
      List.getD_cons_succ, List.getD_cons_zero, UInt8.toNat_ofNat_of_lt' htrail, UInt8.toNat_ofNat_of_lt' htrail', hvalue, hbits, hbits', joined_three]
    rfl

theorem asUTF8_ne_nil (n : ℕ) : asUTF8 n ≠ [] := by
  rw [asUTF8]
  split
  · exact List.cons_ne_nil _ _
  · split
    · exact List.cons_ne_nil _ _
    · exact List.cons_ne_nil _ _

theorem zero_notMem_asUTF8 {n : ℕ} (hn : n < 65536) (hpos : 0 < n) : 0 ∉ asUTF8 n := by
  have hlow : n &&& 0x3f = n % 64 := Nat.and_two_pow_sub_one_eq_mod n 6
  have hmiddle : (n >>> 6) &&& 0x3f = n / 64 % 64 := by
    rw [Nat.shiftRight_eq_div_pow]
    exact Nat.and_two_pow_sub_one_eq_mod (n / 64) 6
  have htrail : ∀ k < 64, (0 : UInt8) ≠ UInt8.ofNat (0x80 ||| k) := by decide
  have htwo : ∀ k < 32, (0 : UInt8) ≠ UInt8.ofNat (0xc0 ||| k) := by decide
  have hthree : ∀ k < 16, (0 : UInt8) ≠ UInt8.ofNat (0xe0 ||| k) := by decide
  have hone : ∀ k < 128, 0 < k → (0 : UInt8) ≠ UInt8.ofNat k := by decide
  rw [asUTF8, hlow, hmiddle, Nat.shiftRight_eq_div_pow, Nat.shiftRight_eq_div_pow]
  split
  · rename_i hbits
    have hsmall : n < 128 := (and_high_eq_zero (k := 7) hn rfl rfl rfl).mp hbits
    rw [List.mem_singleton]
    exact hone n hsmall hpos
  · split
    · rename_i hbits
      have hsmall : n < 2048 := (and_high_eq_zero (k := 11) hn rfl rfl rfl).mp hbits
      rw [List.mem_cons, List.mem_singleton]
      rintro (h | h)
      · exact htwo (n / 64) (by omega) h
      · exact htrail (n % 64) (Nat.mod_lt _ (by decide)) h
    · rw [List.mem_cons, List.mem_cons, List.mem_singleton]
      rintro (h | h | h)
      · exact hthree (n / 4096) (by omega) h
      · exact htrail (n / 64 % 64) (Nat.mod_lt _ (by decide)) h
      · exact htrail (n % 64) (Nat.mod_lt _ (by decide)) h

variable {items : List StringItem} {bytes : Bytes}

theorem cString_eq (h : 0 ∉ bytes) : cString bytes = bytes := by
  rw [cString, List.takeWhile_eq_self_iff]
  intro b hb
  exact decide_eq_true fun hzero => h (hzero ▸ hb)

/-! ### The loops -/

/-- The characters that are written for some bytes. -/
inductive Writes (fromchset : CharacterSet) : Bytes → List (Option UInt16) → Prop
  | nil : Writes fromchset [] []
  | cons {b : UInt8} {bytes rest : Bytes} {c : Option UInt16} {cs : List (Option UInt16)}
      (h : exportChar fromchset (b :: bytes) = (c, rest)) (hrest : Writes fromchset rest cs) :
      Writes fromchset (b :: bytes) (c :: cs)

theorem getUTF8_pos (bytes : Bytes) : 1 ≤ (getUTF8 bytes).2 := by
  rw [getUTF8]
  dsimp only
  split
  · split
    · exact Nat.le_succ 1
    · exact Nat.le_refl 1
  · split
    · split
      · split
        · exact Nat.succ_le_succ (Nat.zero_le 2)
        · exact Nat.succ_le_succ (Nat.zero_le 1)
      · split
        · exact Nat.succ_le_succ (Nat.zero_le 1)
        · exact Nat.le_refl 1
    · exact Nat.le_refl 1

theorem exportChar_shorter (fromchset : CharacterSet) (b : UInt8) (bytes : Bytes) :
    (exportChar fromchset (b :: bytes)).2.length ≤ bytes.length := by
  have hpos := getUTF8_pos (b :: bytes)
  rw [exportChar]
  split
  · split
    · split
      · exact Nat.zero_le _
      · rw [List.length_drop]
        exact Nat.sub_le _ _
    · exact Nat.le_refl _
  · split
    · rw [List.length_drop, List.length_cons]
      omega
    · exact Nat.le_refl _

theorem writes_exists (fromchset : CharacterSet) (bytes : Bytes) : ∃ cs, Writes fromchset bytes cs := by
  induction hn : bytes.length using Nat.strong_induction_on generalizing bytes with
  | _ n ih =>
    cases bytes with
    | nil => exact ⟨[], .nil⟩
    | cons b bytes =>
      have hshort := exportChar_shorter fromchset b bytes
      obtain ⟨cs, hcs⟩ := ih _ (by rw [← hn, List.length_cons]; omega) (exportChar fromchset (b :: bytes)).2 rfl
      exact ⟨_, .cons rfl hcs⟩

variable {fromchset : CharacterSet}

theorem exportLoop_of_writes {cs : List (Option UInt16)} (h : Writes fromchset bytes cs) :
    ∀ {room : ℕ}, bytes.length ≤ room → exportLoop fromchset room bytes = (cs, []) := by
  induction h with
  | nil =>
    intro room _
    cases room with
    | zero => rfl
    | succ room => rfl
  | @cons b bytes rest c cs hchar _ ih =>
    intro room hroom
    rw [List.length_cons] at hroom
    cases room with
    | zero => omega
    | succ room =>
      have hshort := exportChar_shorter fromchset b bytes
      rw [hchar] at hshort
      rw [exportLoop, hchar]
      dsimp only
      rw [ih (by dsimp only at hshort; omega)]

theorem writes_unique {cs cs' : List (Option UInt16)}
    (h : Writes fromchset bytes cs) (h' : Writes fromchset bytes cs') : cs = cs' :=
  congrArg Prod.fst ((exportLoop_of_writes h (Nat.le_refl _)).symm.trans (exportLoop_of_writes h' (Nat.le_refl _)))

theorem skipChar_eq (hset : fromchset = .CP1252 ∨ fromchset = .UTF8) (bytes : Bytes) :
    skipChar fromchset bytes = (exportChar fromchset bytes).2 := by
  rw [skipChar, exportChar]
  rcases hset with rfl | rfl
  · rw [if_pos rfl, if_pos rfl]
    split
    · split
      · rfl
      · rfl
    · rfl
  · rw [if_neg (by decide), if_neg (by decide), if_pos rfl]

theorem lengthLoop_of_writes (hset : fromchset = .CP1252 ∨ fromchset = .UTF8)
    {cs : List (Option UInt16)} (h : Writes fromchset bytes cs) :
    ∀ {fuel : ℕ}, bytes.length ≤ fuel → lengthLoop fromchset fuel bytes = cs.length := by
  induction h with
  | nil =>
    intro fuel _
    cases fuel with
    | zero => rfl
    | succ fuel => rfl
  | @cons b bytes rest c cs hchar _ ih =>
    intro fuel hfuel
    rw [List.length_cons] at hfuel
    cases fuel with
    | zero => omega
    | succ fuel =>
      have hshort := exportChar_shorter fromchset b bytes
      rw [hchar] at hshort
      rw [lengthLoop, skipChar_eq hset, hchar, ih (by dsimp only at hshort ⊢; omega), List.length_cons]

/-- What `Export` writes and what `ExportLength` counts come from one walk over the bytes. -/
theorem exported_iff (hset : fromchset = .CP1252 ∨ fromchset = .UTF8) {s : Bytes} : Exported fromchset items s ↔
      ∃ texts, List.Forall₂ (StringItem.Text fromchset) items texts ∧ Writes fromchset s (texts.flatten.map some) := by
  obtain ⟨cs, hcs⟩ := writes_exists fromchset s
  have hexport : ∀ room, s.length ≤ room → Export s room fromchset = (cs, true) := by
    intro room hroom
    rw [Export, exportLoop_of_writes hcs hroom]
    rfl
  constructor
  · rintro ⟨texts, htexts, hrun⟩
    have hsame := congrArg Prod.fst ((hexport s.length (Nat.le_refl _)).symm.trans (hrun s.length (Nat.le_refl _)).1)
    dsimp only at hsame
    rw [hsame] at hcs
    exact ⟨texts, htexts, hcs⟩
  · rintro ⟨texts, htexts, hwrites⟩
    refine ⟨texts, htexts, fun room hroom => ⟨?_, ?_⟩⟩
    · rw [hexport room hroom, writes_unique hcs hwrites]
    · rw [ExportLength, if_neg (not_not.mpr rfl), if_pos hset, lengthLoop_of_writes hset hwrites (Nat.le_refl _),
        List.length_map]

/-! ### Items -/

section Items

variable {rest : Bytes} {ws : List (Option UInt16)}

/-- The bytes of a CP1252 literal without the escape byte are mapped one by one. -/
theorem writes_cp1252 {chars : Bytes} (hescape : UnicodeEscape ∉ chars) (h : Writes .CP1252 rest ws) :
    Writes .CP1252 (chars ++ rest) ((chars.map fun b => mapException b.toUInt16).map some ++ ws) := by
  induction chars with
  | nil => exact h
  | cons b chars ih =>
    rw [List.mem_cons, not_or] at hescape
    refine .cons ?_ (ih hescape.2)
    rw [exportChar, if_pos rfl, List.getD_cons_zero, if_neg (Ne.symm hescape.1)]
    rfl

theorem mapException_eq {n : ℕ} (hn : n < 65536) (hrange : n < 0x80 ∨ 0x9f < n) :
    mapException (UInt16.ofNat n) = UInt16.ofNat n := by
  have hnat : (UInt16.ofNat n).toNat = n := UInt16.toNat_ofNat_of_lt' hn
  rw [mapException, if_neg]
  rintro ⟨-, hlow, hhigh⟩
  rw [UInt16.le_iff_toNat_le, hnat] at hlow hhigh
  have hlow' : 128 ≤ n := hlow
  have hhigh' : n ≤ 159 := hhigh
  omega

theorem writes_escape {n : ℕ} (hn : n < 65536) (hrange : n < 0x80 ∨ 0x9f < n) (h : Writes .CP1252 rest ws) :
    Writes .CP1252 (UnicodeEscape :: asUTF8 n ++ rest) (some (UInt16.ofNat n) :: ws) := by
  have hlength : 0 < (asUTF8 n).length := List.length_pos_iff.mpr (asUTF8_ne_nil n)
  have hchar : exportChar .CP1252 (UnicodeEscape :: (asUTF8 n ++ rest)) = (some (UInt16.ofNat n), rest) := by
    rw [exportChar, if_pos rfl, List.getD_cons_zero, if_pos rfl, if_neg, List.tail_cons, getUTF8_asUTF8 hn]
    · dsimp only
      rw [mapException_eq hn hrange, List.drop_left]
    · rw [List.length_cons, List.length_append]
      omega
  exact .cons hchar h

theorem writes_utf8 {n : ℕ} (hn : n < 65536) (h : Writes .UTF8 rest ws) :
    Writes .UTF8 (asUTF8 n ++ rest) (some (UInt16.ofNat n) :: ws) := by
  obtain ⟨b, bytes, hbytes⟩ := List.exists_cons_of_ne_nil (asUTF8_ne_nil n)
  have hchar : exportChar .UTF8 (asUTF8 n ++ rest) = (some (UInt16.ofNat n), rest) := by
    rw [exportChar, if_neg (by decide), if_pos rfl, getUTF8_asUTF8 hn]
    dsimp only
    rw [List.drop_left]
  rw [hbytes, List.cons_append] at hchar ⊢
  exact .cons hchar h

theorem writes_text {text : List UInt16} (h : Writes .UTF8 rest ws) :
    Writes .UTF8 ((text.flatMap fun c => asUTF8 c.toNat) ++ rest) (text.map some ++ ws) := by
  induction text with
  | nil => exact h
  | cons c text ih =>
    have hc := writes_utf8 (n := c.toNat) c.toNat_lt ih
    rw [UInt16.ofNat_toNat] at hc
    rw [List.flatMap_cons, List.append_assoc]
    exact hc

theorem writes_item {fromchset : CharacterSet} (hset : fromchset = .CP1252 ∨ fromchset = .UTF8) {item : StringItem}
    {text : List UInt16} (hdomain : item.InDomain fromchset) (hfits : item.Fits fromchset) (htext : item.Text fromchset text)
    (h : Writes fromchset rest ws) : Writes fromchset (item.bytes fromchset ++ rest) (text.map some ++ ws) := by
  cases item with
  | literal chars hchars =>
    rcases hset with rfl | rfl
    · obtain rfl : text = chars.map fun b => mapException b.toUInt16 := htext
      exact writes_cp1252 hfits h
    · obtain rfl : chars = text.flatMap fun c => asUTF8 c.toNat := htext
      exact writes_text h
  | code n =>
    obtain ⟨hlow, hhigh, hrange⟩ := hdomain
    have hfits' : n ≠ 0 := hfits
    obtain rfl : text = [UInt16.ofNat n.toNat] := htext
    have hbytes : cString (asUTF8 n.toNat) = asUTF8 n.toNat := cString_eq (zero_notMem_asUTF8 (by omega) (by omega))
    rcases hset with rfl | rfl
    · have hrange' := hrange rfl
      rw [StringItem.bytes, if_pos rfl, hbytes]
      exact writes_escape (by omega) (by omega) h
    · rw [StringItem.bytes, if_neg (by decide), hbytes]
      exact writes_utf8 (by omega) h

end Items

/-! ### The string of an expression -/

theorem value_eq (hset : fromchset = .CP1252 ∨ fromchset = .UTF8) {item : StringItem} {s : Bytes}
    (h : item.value .Unicode fromchset = .ok s) : s = item.bytes fromchset := by
  cases item with
  | literal chars hchars => exact (Except.ok.inj h).symm
  | code n =>
    rw [StringItem.value, character_code_expression] at h
    split at h
    · cases h
    split at h
    · cases h
    rw [if_neg (not_not.mpr rfl)] at h
    rcases hset with rfl | rfl
    · rw [if_pos rfl] at h
      exact (Except.ok.inj h).symm
    · rw [if_neg (by decide), if_pos rfl] at h
      exact (Except.ok.inj h).symm

theorem string_expression_eq (hset : fromchset = .CP1252 ∨ fromchset = .UTF8) {item : StringItem}
    {rest : List StringItem} {s : Bytes} (h : string_expression .Unicode fromchset item rest = .ok s) :
    s = (item :: rest).flatMap (StringItem.bytes fromchset) := by
  induction rest generalizing item s with
  | nil =>
    rw [string_expression] at h
    rw [List.flatMap_singleton, value_eq hset h]
  | cons next rest ih =>
    rw [string_expression] at h
    obtain ⟨front, hfront, h⟩ := bind_eq_ok.mp h
    obtain ⟨back, hback, h⟩ := bind_eq_ok.mp h
    split at h
    · cases h
    · obtain rfl := Except.ok.inj h
      rw [List.flatMap_cons, value_eq hset hfront, ih hback]

theorem writes_items (hset : fromchset = .CP1252 ∨ fromchset = .UTF8)
    (hdomain : ∀ i ∈ items, i.InDomain fromchset) (hfits : ∀ i ∈ items, i.Fits fromchset) :
    ∃ texts, List.Forall₂ (StringItem.Text fromchset) items texts ∧
      Writes fromchset (items.flatMap (StringItem.bytes fromchset)) (texts.flatten.map some) := by
  induction items with
  | nil => exact ⟨[], .nil, .nil⟩
  | cons item items ih =>
    obtain ⟨texts, htexts, hwrites⟩ := ih (fun i hi => hdomain i (List.mem_cons_of_mem _ hi))
      fun i hi => hfits i (List.mem_cons_of_mem _ hi)
    have hitem := hfits item List.mem_cons_self
    obtain ⟨text, htext⟩ : ∃ text, item.Text fromchset text := by
      cases item with
      | literal chars hchars =>
        rcases hset with rfl | rfl
        · exact ⟨_, rfl⟩
        · exact hitem
      | code n => exact ⟨_, rfl⟩
    refine ⟨text :: texts, .cons htext htexts, ?_⟩
    rw [List.flatMap_cons, List.flatten_cons, List.map_append]
    exact writes_item hset (hdomain item List.mem_cons_self) hitem htext hwrites

/-! ### Codes that are 0 -/

theorem mapException_eq_zero {c : UInt16} (h : mapException c = 0) : c = 0 := by
  have htable : (cp1252_exceptions.all fun w => w ≠ 0) = true := by decide
  rw [mapException] at h
  split at h
  · rename_i hrange
    have hhigh : c.toNat ≤ 159 := UInt16.le_iff_toNat_le.mp hrange.2.2
    have hindex : c.toNat - 128 < cp1252_exceptions.length := by
      show c.toNat - 128 < 32
      omega
    rw [List.getD_eq_getElem _ _ hindex] at h
    exact absurd h (of_decide_eq_true (List.all_eq_true.mp htable _ (List.getElem_mem hindex)))
  · exact h

theorem ofNat_eq_zero {x : ℕ} (hx : x < 2 ^ 16) (h : UInt16.ofNat x = 0) : x = 0 :=
  (UInt16.toNat_ofNat_of_lt' hx).symm.trans (congrArg UInt16.toNat h)

theorem getUTF8_zero {b : UInt8} (h : (getUTF8 (b :: bytes)).1 = 0) : b = 0 ∨ b = 0xC0 ∨ b = 0xE0 := by
  have hlow : ∀ i, lowBits (b :: bytes) i < 64 := fun i => Nat.lt_succ_of_le Nat.and_le_right
  have htwo : ∀ k < 256, k &&& 0xe0 = 0xc0 → k &&& 0x1f = 0 → k = 0xC0 := by decide +kernel
  have hthree : ∀ k < 256, k &&& 0xf0 = 0xe0 → k &&& 0x0f = 0 → k = 0xE0 := by decide +kernel
  have hfive : b.toNat &&& 0x1f < 32 := Nat.lt_succ_of_le Nat.and_le_right
  have hfour : b.toNat &&& 0x0f < 16 := Nat.lt_succ_of_le Nat.and_le_right
  have hlead : (b.toNat &&& 0x1f) <<< 6 < 2 ^ 16 := by rw [Nat.shiftLeft_eq]; omega
  have hlead' : (b.toNat &&& 0x0f) <<< 12 < 2 ^ 16 := by rw [Nat.shiftLeft_eq]; omega
  have hmiddle : lowBits (b :: bytes) 1 <<< 6 < 2 ^ 16 := by
    have hlt := hlow 1
    rw [Nat.shiftLeft_eq]
    omega
  have hlast : ∀ i, lowBits (b :: bytes) i < 2 ^ 16 := fun i => (hlow i).trans (by decide)
  have hzero_two : (b.toNat &&& 0x1f) <<< 6 = 0 → b.toNat &&& 0xe0 = 0xc0 → b = 0xC0 := by
    intro hshift hmask
    rw [Nat.shiftLeft_eq] at hshift
    exact UInt8.toNat_inj.mp (htwo _ b.toNat_lt hmask (by omega))
  have hzero_three : (b.toNat &&& 0x0f) <<< 12 = 0 → b.toNat &&& 0xf0 = 0xe0 → b = 0xE0 := by
    intro hshift hmask
    rw [Nat.shiftLeft_eq] at hshift
    exact UInt8.toNat_inj.mp (hthree _ b.toNat_lt hmask (by omega))
  rw [getUTF8, List.getD_cons_zero] at h
  dsimp only at h
  split at h
  · rename_i hmask
    split at h
    · have hor := ofNat_eq_zero (Nat.or_lt_two_pow hlead (hlast 1)) h
      exact .inr (.inl (hzero_two (Nat.or_eq_zero_iff.mp hor).1 hmask))
    · exact .inr (.inl (hzero_two (ofNat_eq_zero hlead h) hmask))
  · split at h
    · rename_i hmask
      refine .inr (.inr (hzero_three ?_ hmask))
      split at h
      · split at h
        · have hor := ofNat_eq_zero (Nat.or_lt_two_pow (Nat.or_lt_two_pow hlead' hmiddle) (hlast 2)) h
          exact (Nat.or_eq_zero_iff.mp (Nat.or_eq_zero_iff.mp hor).1).1
        · exact (Nat.or_eq_zero_iff.mp (ofNat_eq_zero (Nat.or_lt_two_pow hlead' hmiddle) h)).1
      · split at h
        · exact (Nat.or_eq_zero_iff.mp (ofNat_eq_zero (Nat.or_lt_two_pow hlead' (hlast 2)) h)).1
        · exact ofNat_eq_zero hlead' h
    · have hb : b.toNat = 0 := ofNat_eq_zero (b.toNat_lt.trans (by decide)) h
      exact .inl (UInt8.toNat_inj.mp hb)

/-- What UTF-8 makes of the items; it is shorter than their text when a code is 0. -/
theorem writes_without_zero {texts : List (List UInt16)}
    (htexts : List.Forall₂ (StringItem.Text .UTF8) items texts) (hdomain : ∀ i ∈ items, i.InDomain .UTF8) :
    ∃ text : List UInt16, Writes .UTF8 (items.flatMap (StringItem.bytes .UTF8)) (text.map some) ∧
      text.length ≤ texts.flatten.length ∧
      ((∃ i ∈ items, ¬ i.Fits .UTF8) → text.length < texts.flatten.length) := by
  induction htexts with
  | nil => exact ⟨[], .nil, Nat.le_refl _, fun ⟨i, hi, _⟩ => absurd hi List.not_mem_nil⟩
  | @cons item words items texts htext _ ih =>
    obtain ⟨text, hwrites, hle, hlt⟩ := ih fun i hi => hdomain i (List.mem_cons_of_mem _ hi)
    rw [List.flatten_cons, List.length_append]
    by_cases hfits : item.Fits .UTF8
    · refine ⟨words ++ text, ?_, ?_, ?_⟩
      · rw [List.flatMap_cons, List.map_append]
        exact writes_item (.inr rfl) (hdomain item List.mem_cons_self) hfits htext hwrites
      · rw [List.length_append]
        omega
      · rintro ⟨i, hi, hnot⟩
        rcases List.mem_cons.mp hi with rfl | hi
        · exact absurd hfits hnot
        · have hshort := hlt ⟨i, hi, hnot⟩
          rw [List.length_append]
          omega
    · cases item with
      | literal chars hchars => exact absurd ⟨words, htext⟩ hfits
      | code n =>
        obtain rfl : n = 0 := not_not.mp hfits
        obtain rfl : words = [0] := htext
        refine ⟨text, hwrites, ?_, fun _ => ?_⟩
        · rw [List.length_singleton]
          omega
        · rw [List.length_singleton]
          omega

/-- No item of a CP1252 source begins with a byte that is decoded to the character 0. -/
theorem head_not_zero (hclear : ∀ i ∈ items, i.Clear) {b : UInt8}
    (h : items.flatMap (StringItem.bytes .CP1252) = b :: bytes) : ¬ (b = 0 ∨ b = 0xC0 ∨ b = 0xE0) := by
  induction items with
  | nil => cases h
  | cons item items ih =>
    rw [List.flatMap_cons] at h
    cases item with
    | literal chars hchars =>
      cases chars with
      | nil => exact ih (fun i hi => hclear i (List.mem_cons_of_mem _ hi)) h
      | cons c chars =>
        obtain rfl : c = b := (List.cons.inj h).1
        obtain ⟨-, hC0, hE0⟩ := hclear _ List.mem_cons_self
        rintro (rfl | rfl | rfl)
        · exact hchars List.mem_cons_self
        · exact hC0 List.mem_cons_self
        · exact hE0 List.mem_cons_self
    | code n =>
      obtain rfl : UnicodeEscape = b := (List.cons.inj h).1
      decide

/-- In a CP1252 source the escape byte of a code that is 0 takes what stands behind it. -/
theorem zero_differs {texts : List (List UInt16)}
    (htexts : List.Forall₂ (StringItem.Text .CP1252) items texts) (hdomain : ∀ i ∈ items, i.InDomain .CP1252)
    (hclear : ∀ i ∈ items, i.Clear) (hzero : ∃ i ∈ items, ¬ i.Fits .CP1252) :
    ¬ Writes .CP1252 (items.flatMap (StringItem.bytes .CP1252)) (texts.flatten.map some) := by
  induction htexts with
  | nil =>
    obtain ⟨i, hi, -⟩ := hzero
    exact absurd hi List.not_mem_nil
  | @cons item words items texts htext _ ih =>
    have hclear' : ∀ i ∈ items, i.Clear := fun i hi => hclear i (List.mem_cons_of_mem _ hi)
    rw [List.flatMap_cons, List.flatten_cons, List.map_append]
    intro hwrites
    by_cases hfits : item.Fits .CP1252
    · obtain ⟨ws, hws⟩ := writes_exists .CP1252 (items.flatMap (StringItem.bytes .CP1252))
      have hitem := writes_item (.inl rfl) (hdomain item List.mem_cons_self) hfits htext hws
      have hsame : ws = texts.flatten.map some := List.append_cancel_left (writes_unique hitem hwrites)
      obtain ⟨i, hi, hnot⟩ := hzero
      rcases List.mem_cons.mp hi with rfl | hi
      · exact hnot hfits
      · exact ih (fun i hi => hdomain i (List.mem_cons_of_mem _ hi)) hclear' ⟨i, hi, hnot⟩ (hsame ▸ hws)
    · cases item with
      | literal chars hchars => exact hfits (hclear _ List.mem_cons_self).1
      | code n =>
        obtain rfl : n = 0 := not_not.mp hfits
        obtain rfl : words = [0] := htext
        have hbytes : (StringItem.code 0).bytes .CP1252 = [UnicodeEscape] := rfl
        rw [hbytes, List.singleton_append, List.map_singleton, List.singleton_append] at hwrites
        cases hwrites with
        | cons hchar _ =>
          have hfirst := congrArg Prod.fst hchar
          rw [exportChar, if_pos rfl, List.getD_cons_zero, if_pos rfl, List.tail_cons] at hfirst
          cases hrest : items.flatMap (StringItem.bytes .CP1252) with
          | nil =>
            rw [hrest] at hfirst
            cases hfirst
          | cons b bytes =>
            rw [hrest, if_neg (by simp)] at hfirst
            exact head_not_zero hclear' hrest (getUTF8_zero (mapException_eq_zero (Option.some.inj hfirst)))

/-! ### The text of an expression -/

/-- The text is exported as it should be when every item fits; for UTF-8, and for CP1252 literals that no code 0 can take
apart, only then. -/
theorem stringExpression_exported {fromchset : CharacterSet} (hset : fromchset = .CP1252 ∨ fromchset = .UTF8)
    {item : StringItem} {rest : List StringItem} {s : Bytes} (h : string_expression .Unicode fromchset item rest = .ok s)
    (hdomain : ∀ i ∈ item :: rest, i.InDomain fromchset) :
    ((∀ i ∈ item :: rest, i.Fits fromchset) → Exported fromchset (item :: rest) s) ∧
      ((fromchset = .CP1252 → ∀ i ∈ item :: rest, i.Clear) →
        (Exported fromchset (item :: rest) s ↔ ∀ i ∈ item :: rest, i.Fits fromchset)) := by
  rw [exported_iff hset, string_expression_eq hset h]
  have henough : (∀ i ∈ item :: rest, i.Fits fromchset) →
      ∃ texts, List.Forall₂ (StringItem.Text fromchset) (item :: rest) texts ∧
        Writes fromchset ((item :: rest).flatMap (StringItem.bytes fromchset)) (texts.flatten.map some) :=
    fun hfits => writes_items hset hdomain hfits
  refine ⟨henough, fun hclear => ⟨?_, henough⟩⟩
  rintro ⟨texts, htexts, hwrites⟩
  by_contra hunfit
  obtain ⟨i, hi, hnot⟩ : ∃ i ∈ item :: rest, ¬ i.Fits fromchset := by
    by_contra hnone
    exact hunfit fun i hi => by_contra fun hnot => hnone ⟨i, hi, hnot⟩
  rcases hset with rfl | rfl
  · exact zero_differs htexts hdomain (hclear rfl) ⟨i, hi, hnot⟩ hwrites
  · obtain ⟨text, htext, _, hshort⟩ := writes_without_zero htexts hdomain
    have hlength := congrArg List.length (writes_unique htext hwrites)
    rw [List.length_map, List.length_map] at hlength
    have hlt := hshort ⟨i, hi, hnot⟩
    omega

/-- `"a" <0x20AC> "b"` in a CP1252 source. -/
def euroItems : List StringItem := [.code 0x20AC, .literal [98] (by decide)]

theorem euroItems_exported : Exported .CP1252 (.literal [97] (by decide) :: euroItems) [97, 0x81, 0xE2, 0x82, 0xAC, 98] := by
  have ha : UnicodeEscape ∉ [97] := by decide
  have heuro : (0x20AC : ℤ) ≠ 0 := by decide
  have hb : UnicodeEscape ∉ [98] := by decide
  have hall : ∀ i ∈ StringItem.literal [97] (by decide) :: euroItems, i.Fits .CP1252 ∧ i.InDomain .CP1252 := by
    intro i hi
    rcases List.mem_cons.mp hi with rfl | hi
    · exact ⟨ha, trivial⟩
    rcases List.mem_cons.mp hi with rfl | hi
    · exact ⟨heuro, by decide, by decide, fun _ => .inr (by decide)⟩
    · obtain rfl := List.mem_singleton.mp hi
      exact ⟨hb, trivial⟩
  exact (stringExpression_exported (.inl rfl) (by decide) fun i hi => (hall i hi).2).1 fun i hi => (hall i hi).1

/-- `"a" <0> "b"` in a CP1252 source: the character 0 is lost. -/
theorem zeroCode_lost : ¬ Exported .CP1252 [.literal [97] (by decide), .code 0, .literal [98] (by decide)] [97, 0x81, 98] ∧
    string_expression .Unicode .CP1252 (.literal [97] (by decide)) [.code 0, .literal [98] (by decide)] =
      .ok [97, 0x81, 98] ∧
    Export [97, 0x81, 98] 3 .CP1252 = ([some 97, some 98], true) := by
  have hexport : Export [97, 0x81, 98] 3 .CP1252 = ([some 97, some 98], true) := by decide
  refine ⟨?_, by decide, hexport⟩
  rintro ⟨texts, htexts, hrun⟩
  have hsame := (hrun 3 (by decide)).1
  rw [hexport] at hsame
  cases htexts with
  | cons ha hrest =>
    cases hrest with
    | cons hzero hrest =>
      cases hrest with
      | cons hb hnil =>
        cases hnil
        obtain rfl : _ = _ := ha
        obtain rfl : _ = _ := hzero
        obtain rfl : _ = _ := hb
        exact absurd hsame (by decide)

end GnuPoc.Rcomp
