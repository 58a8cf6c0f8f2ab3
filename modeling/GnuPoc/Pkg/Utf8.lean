import GnuPoc.Lib.LittleEndian

/-!
# GnuPoc.Pkg.Utf8 — package files in UTF-8 (`utf8.cpp`, `utils.cpp`)

A pointer into the source is the bytes from there on, a pointer into the target the units in front of it.  The
loop of `ConvertFileToUnicode` runs on fuel, as it need not end.
-/

namespace GnuPoc.Pkg

open GnuPoc.Lib

/-! ### `ConvertUTF8toUTF16` -/

inductive ConversionResult
  | conversionOK | sourceExhausted | targetExhausted | sourceIllegal
  deriving DecidableEq, Repr

/-- The table `trailingBytesForUTF8`. -/
def trailingBytesForUTF8 (b : UInt8) : ℕ :=
  if b.toNat < 0xC0 then 0 else if b.toNat < 0xE0 then 1 else if b.toNat < 0xF0 then 2
  else if b.toNat < 0xF8 then 3 else if b.toNat < 0xFC then 4 else 5

def offsetsFromUTF8 : ℕ → ℕ
  | 0 => 0x00000000
  | 1 => 0x00003080
  | 2 => 0x000E2080
  | 3 => 0x03C82080
  | 4 => 0xFA082080
  | _ => 0x82082080

/-- `isLegalUTF8`; each case goes on with the one below it. -/
def isLegalUTF8 (source : Bytes) (length : ℕ) : Bool :=
  let a := fun i => (source.getD i 0).toNat
  let case1 := ¬ (0x80 ≤ a 0 ∧ a 0 < 0xC2) ∧ a 0 ≤ 0xF4
  let case2 := a 1 ≤ 0xBF ∧
    (if a 0 = 0xE0 then 0xA0 ≤ a 1 else if a 0 = 0xF0 then 0x90 ≤ a 1 else if a 0 = 0xF4 then a 1 ≤ 0x8F
      else 0x80 ≤ a 1) ∧ case1
  let case3 := (0x80 ≤ a 2 ∧ a 2 ≤ 0xBF) ∧ case2
  let case4 := (0x80 ≤ a 3 ∧ a 3 ≤ 0xBF) ∧ case3
  match length with
  | 1 => decide case1
  | 2 => decide case2
  | 3 => decide case3
  | 4 => decide case4
  | _ => false

/-- `ch += *source++; ch <<= 6`.  The number of a legal sequence is not below the offset. -/
def sequenceValue (bytes : Bytes) : ℕ :=
  bytes.foldl (fun ch b => ch * 64 + b.toNat) 0 - offsetsFromUTF8 (bytes.length - 1)

/-- What is stored for a character with `lenientConversion`. -/
def lenientUnits (ch : ℕ) : List UInt16 :=
  if ch ≤ 0xFFFF then
    if (0xD800 ≤ ch ∧ ch ≤ 0xDFFF) ∨ ch &&& 0xFFFE = 0xFFFE then [0xFFFD] else [UInt16.ofNat ch]
  else if 0x10FFFF < ch then [0xFFFD]
  else [UInt16.ofNat (((ch - 0x10000) >>> 10) + 0xD800), UInt16.ofNat (((ch - 0x10000) &&& 0x3FF) + 0xDC00)]

/-- `ConvertUTF8toUTF16` into a buffer of `targetEnd` units. -/
def ConvertUTF8toUTF16 (targetEnd : ℕ) (source : Bytes) (target : List UInt16) :
    ConversionResult × Bytes × List UInt16 :=
  match source with
  | [] => (.conversionOK, [], target)
  | b :: rest =>
    let extraBytesToRead := trailingBytesForUTF8 b
    if (b :: rest).length ≤ extraBytesToRead then (.sourceExhausted, b :: rest, target)
    else if isLegalUTF8 (b :: rest) (extraBytesToRead + 1) = false then (.sourceIllegal, b :: rest, target)
    else
      let ch := sequenceValue ((b :: rest).take (extraBytesToRead + 1))
      if targetEnd < target.length + (lenientUnits ch).length then (.targetExhausted, b :: rest, target)
      else ConvertUTF8toUTF16 targetEnd (rest.drop extraBytesToRead) (target ++ lenientUnits ch)
termination_by source.length
decreasing_by
  simp only [List.length_drop, List.length_cons]
  omega

/-! ### `ConvertFileToUnicode` -/

/-- The loop, for a file of `fileSize` bytes. -/
def convertLoop (fileSize : ℕ) : ℕ → Bytes → List UInt16 → Option (List UInt16)
  | 0, _, _ => none
  | n + 1, sourceStart, file =>
    if sourceStart = [] then some file
    else
      let (ret, source, target) := ConvertUTF8toUTF16 fileSize sourceStart []
      if ret = .sourceIllegal then
        convertLoop fileSize n source.tail (file ++ target ++ (source.take 1).map UInt8.toUInt16)
      else convertLoop fileSize n source (file ++ target)

/-- `ConvertFileToUnicode` comes to its end with this file. -/
def ConvertFileToUnicode (content : Bytes) (file : List UInt16) : Prop :=
  ∃ n, convertLoop content.length n content [] = some file

/-! ### What a file is converted to -/

/-- The units written for the bytes from a position on, where the conversion gets to their end. -/
def units (source : Bytes) : Option (List UInt16) :=
  match source with
  | [] => some []
  | b :: rest =>
    if (b :: rest).length ≤ trailingBytesForUTF8 b then none
    else if isLegalUTF8 (b :: rest) (trailingBytesForUTF8 b + 1) = false then
      (units rest).map ([b.toUInt16] ++ ·)
    else
      (units (rest.drop (trailingBytesForUTF8 b))).map
        (lenientUnits (sequenceValue ((b :: rest).take (trailingBytesForUTF8 b + 1))) ++ ·)
termination_by source.length
decreasing_by
  · simp
  · simp only [List.length_drop, List.length_cons]
    omega

theorem units_exhausted {b : UInt8} {rest : Bytes} (h : (b :: rest).length ≤ trailingBytesForUTF8 b) :
    units (b :: rest) = none := by
  rw [units, if_pos h]

theorem units_illegal {b : UInt8} {rest : Bytes} (h : ¬ (b :: rest).length ≤ trailingBytesForUTF8 b)
    (hill : isLegalUTF8 (b :: rest) (trailingBytesForUTF8 b + 1) = false) :
    units (b :: rest) = (units rest).map ([b.toUInt16] ++ ·) := by
  rw [units, if_neg h, if_pos hill]

theorem units_legal {b : UInt8} {rest : Bytes} (h : ¬ (b :: rest).length ≤ trailingBytesForUTF8 b)
    (hleg : ¬ isLegalUTF8 (b :: rest) (trailingBytesForUTF8 b + 1) = false) :
    units (b :: rest) = (units (rest.drop (trailingBytesForUTF8 b))).map
      (lenientUnits (sequenceValue ((b :: rest).take (trailingBytesForUTF8 b + 1))) ++ ·) := by
  rw [units, if_neg h, if_neg hleg]

theorem length_lenientUnits_le_two (ch : ℕ) : (lenientUnits ch).length ≤ 2 := by
  unfold lenientUnits
  split_ifs <;> simp

theorem length_lenientUnits_le (b : UInt8) (rest : Bytes) :
    (lenientUnits (sequenceValue ((b :: rest).take (trailingBytesForUTF8 b + 1)))).length ≤
      trailingBytesForUTF8 b + 1 := by
  by_cases h : trailingBytesForUTF8 b = 0
  · have hb := b.toNat_lt
    have hval : sequenceValue ((b :: rest).take (0 + 1)) = b.toNat := by simp [sequenceValue, offsetsFromUTF8]
    rw [h, hval, lenientUnits, if_pos (by omega)]
    split_ifs <;> simp
  · have := length_lenientUnits_le_two (sequenceValue ((b :: rest).take (trailingBytesForUTF8 b + 1)))
    omega

/-- How a call of `ConvertUTF8toUTF16` with room in the target ends. -/
inductive Stopped (targetEnd : ℕ) : ConversionResult → Bytes → Prop
  | done : Stopped targetEnd .conversionOK []
  | exhausted {b : UInt8} {rest : Bytes} (hunits : units (b :: rest) = none)
    (hstuck : ConvertUTF8toUTF16 targetEnd (b :: rest) [] = (.sourceExhausted, b :: rest, [])) :
    Stopped targetEnd .sourceExhausted (b :: rest)
  | illegal {b : UInt8} {rest : Bytes} (hunits : units (b :: rest) = (units rest).map ([b.toUInt16] ++ ·)) :
    Stopped targetEnd .sourceIllegal (b :: rest)

/-- Where the conversion stops, what it has put out are the units so far. -/
theorem ConvertUTF8toUTF16_stopped {targetEnd : ℕ} (source : Bytes) (target : List UInt16)
    (hroom : target.length + source.length ≤ targetEnd) :
    ∃ ret source' out, ConvertUTF8toUTF16 targetEnd source target = (ret, source', target ++ out) ∧
      Stopped targetEnd ret source' ∧ units source = (units source').map (out ++ ·) ∧
      source'.length ≤ source.length := by
  induction source using units.induct generalizing target with
  | case1 =>
    refine ⟨.conversionOK, [], [], ?_, .done, ?_, le_rfl⟩
    · rw [ConvertUTF8toUTF16, List.append_nil]
    · rw [units]
      rfl
  | case2 b rest h =>
    have hret : ∀ t, ConvertUTF8toUTF16 targetEnd (b :: rest) t = (.sourceExhausted, b :: rest, t) := by
      intro t
      rw [ConvertUTF8toUTF16]
      exact if_pos h
    have hunits := units_exhausted h
    exact ⟨.sourceExhausted, b :: rest, [], by rw [hret, List.append_nil], .exhausted hunits (hret []),
      by simp, le_rfl⟩
  | case3 b rest h hill _ =>
    refine ⟨.sourceIllegal, b :: rest, [], ?_, .illegal (units_illegal h hill), by simp, le_rfl⟩
    rw [ConvertUTF8toUTF16, List.append_nil]
    exact (if_neg h).trans (if_pos hill)
  | case4 b rest h hleg ih =>
    have hlen := length_lenientUnits_le b rest
    rw [List.length_cons] at hroom h
    obtain ⟨ret, source', out, hrun, hstop, hunits, hle⟩ := ih
      (target ++ lenientUnits (sequenceValue ((b :: rest).take (trailingBytesForUTF8 b + 1))))
      (by rw [List.length_append, List.length_drop]; omega)
    refine ⟨ret, source', lenientUnits (sequenceValue ((b :: rest).take (trailingBytesForUTF8 b + 1))) ++ out,
      ?_, hstop, ?_, ?_⟩
    · rw [← List.append_assoc, ← hrun, ConvertUTF8toUTF16]
      refine (if_neg h).trans ((if_neg hleg).trans (if_neg ?_))
      omega
    · rw [units_legal h hleg, hunits, Option.map_map]
      congr 1
      ext1 u
      simp
    · rw [List.length_drop] at hle
      rw [List.length_cons]
      omega

/-- Where a sequence is cut off by the end of the file, the loop goes on for ever. -/
theorem convertLoop_stuck {fileSize : ℕ} {source : Bytes} (hne : source ≠ [])
    (hstuck : ConvertUTF8toUTF16 fileSize source [] = (.sourceExhausted, source, [])) :
    ∀ (n : ℕ) (file : List UInt16), convertLoop fileSize n source file = none
  | 0, file => rfl
  | n + 1, file => by
    rw [convertLoop, if_neg hne, hstuck]
    exact convertLoop_stuck hne hstuck n (file ++ [])

theorem exists_convertLoop_succ {fileSize : ℕ} {source : Bytes} {file result : List UInt16} :
    (∃ n, convertLoop fileSize n source file = some result) ↔
      ∃ n, convertLoop fileSize (n + 1) source file = some result := by
  constructor
  · rintro ⟨n, h⟩
    cases n with
    | zero => cases h
    | succ n => exact ⟨n, h⟩
  · rintro ⟨n, h⟩
    exact ⟨n + 1, h⟩

theorem convertLoop_eq_some {fileSize : ℕ} {source : Bytes} (hroom : source.length ≤ fileSize)
    (file result : List UInt16) :
    (∃ n, convertLoop fileSize n source file = some result) ↔ (units source).map (file ++ ·) = some result := by
  induction hlen : source.length using Nat.strong_induction_on generalizing source file with
  | _ len ih =>
    subst hlen
    rw [exists_convertLoop_succ]
    by_cases hnil : source = []
    · subst hnil
      simp only [convertLoop, if_true, units, Option.map_some, List.append_nil]
      exact exists_const ℕ
    · obtain ⟨ret, source', out, hrun, hstop, hunits, hle⟩ :=
        ConvertUTF8toUTF16_stopped source [] (by simpa using hroom)
      rw [List.nil_append] at hrun
      rw [hunits, Option.map_map]
      simp only [convertLoop, if_neg hnil, hrun]
      cases hstop with
      | done =>
        have hlt : ([] : Bytes).length < source.length := List.length_pos_iff.mpr hnil
        simp only [reduceCtorEq, if_false]
        rw [ih 0 hlt (Nat.zero_le _) (file ++ out) rfl, units]
        simp
      | exhausted hnone hstuck =>
        have hnever := convertLoop_stuck (List.cons_ne_nil _ _) hstuck
        simp only [reduceCtorEq, if_false, hnever, hnone, Option.map_none, exists_const]
      | @illegal b rest hill =>
        rw [List.length_cons] at hle
        simp only [if_true, List.tail_cons]
        rw [ih rest.length (by omega) (by omega) _ rfl, hill, Option.map_map]
        have happend : (fun x => file ++ out ++ ((b :: rest).take 1).map UInt8.toUInt16 ++ x) =
            ((file ++ ·) ∘ (out ++ ·)) ∘ ([b.toUInt16] ++ ·) := by
          ext1 x
          simp
        rw [happend]

theorem ConvertFileToUnicode_iff {content : Bytes} {file : List UInt16} :
    ConvertFileToUnicode content file ↔ units content = some file := by
  rw [ConvertFileToUnicode, convertLoop_eq_some le_rfl]
  simp

/-! ### When the conversion ends -/

/-- No byte announces more bytes than there are behind it. -/
def NothingCutOff (content : Bytes) : Prop :=
  ∀ i b, content[i]? = some b → i + trailingBytesForUTF8 b < content.length

theorem trailingBytesForUTF8_eq_zero {b : UInt8} (h : b.toNat ≤ 0xBF) : trailingBytesForUTF8 b = 0 := by
  rw [trailingBytesForUTF8, if_pos (by omega)]

theorem le_of_isLegalUTF8 {source : Bytes} {length i : ℕ} (h : isLegalUTF8 source length = true) (hi : 0 < i)
    (hlt : i < length) : (source.getD i 0).toNat ≤ 0xBF := by
  rcases length with - | - | - | - | - | length
  · omega
  · omega
  · obtain rfl : i = 1 := by omega
    exact (of_decide_eq_true h).1
  · have h : (_ ∧ _) ∧ _ ∧ _ := of_decide_eq_true h
    obtain rfl | rfl : i = 1 ∨ i = 2 := by omega
    · exact h.2.1
    · exact h.1.2
  · have h : (_ ∧ _) ∧ (_ ∧ _) ∧ _ ∧ _ := of_decide_eq_true h
    obtain rfl | rfl | rfl : i = 1 ∨ i = 2 ∨ i = 3 := by omega
    · exact h.2.2.1
    · exact h.2.1.2
    · exact h.1.2
  · cases h

theorem nothingCutOff_cons {b : UInt8} {rest : Bytes} : NothingCutOff (b :: rest) ↔
    trailingBytesForUTF8 b < (b :: rest).length ∧ NothingCutOff rest := by
  constructor
  · intro h
    refine ⟨by simpa using h 0 b rfl, fun i c hc => ?_⟩
    have := h (i + 1) c hc
    rw [List.length_cons] at this
    omega
  · rintro ⟨hb, h⟩ i c hc
    rcases i with - | i
    · cases hc
      simpa using hb
    · have := h i c hc
      rw [List.length_cons]
      omega

theorem nothingCutOff_drop (rest : Bytes) {k : ℕ} (hk : k ≤ rest.length)
    (hnone : ∀ i < k, ∀ b, rest[i]? = some b → trailingBytesForUTF8 b = 0) :
    NothingCutOff rest ↔ NothingCutOff (rest.drop k) := by
  constructor
  · intro h i b hb
    rw [List.getElem?_drop] at hb
    have := h (k + i) b hb
    rw [List.length_drop]
    omega
  · intro h i b hb
    by_cases hi : i < k
    · have hlt := (List.getElem?_eq_some_iff.mp hb).1
      rw [hnone i hi b hb]
      omega
    · have := h (i - k) b (by rw [List.getElem?_drop]; rwa [Nat.add_sub_cancel' (by omega)])
      rw [List.length_drop] at this
      omega

theorem units_isSome_iff (content : Bytes) : (units content).isSome ↔ NothingCutOff content := by
  induction content using units.induct with
  | case1 =>
    rw [units]
    exact iff_of_true rfl (by simp [NothingCutOff])
  | case2 b rest h =>
    rw [units_exhausted h, nothingCutOff_cons]
    simp at h ⊢
    omega
  | case3 b rest h hill ih =>
    rw [units_illegal h hill, Option.isSome_map, ih, nothingCutOff_cons]
    exact ⟨fun hr => ⟨by omega, hr⟩, fun hr => hr.2⟩
  | case4 b rest h hleg ih =>
    rw [units_legal h hleg, Option.isSome_map, ih, nothingCutOff_cons]
    have hlen : trailingBytesForUTF8 b ≤ rest.length := by
      rw [List.length_cons] at h
      omega
    have hskip := nothingCutOff_drop rest hlen fun i hi c hc => by
      refine trailingBytesForUTF8_eq_zero ?_
      have := le_of_isLegalUTF8 (by simpa using hleg) (Nat.succ_pos i) (by omega)
      simpa [hc] using this
    rw [← hskip]
    exact ⟨fun hr => ⟨by omega, hr⟩, fun hr => hr.2⟩

/-! ### What valid files are converted to -/

/-- The UTF-8 form of a text. -/
def utf8 (text : List Char) : Bytes := text.flatMap String.utf8EncodeChar

/-- The UTF-16 form of a character. -/
def utf16Char (c : Char) : List UInt16 :=
  let v := c.val.toNat
  if v < 0x10000 then [UInt16.ofNat v]
  else [UInt16.ofNat (0xD800 + (v - 0x10000) / 0x400), UInt16.ofNat (0xDC00 + (v - 0x10000) % 0x400)]

/-- The UTF-16 form of a text. -/
def utf16 (text : List Char) : List UInt16 := text.flatMap utf16Char

/-- The reserved values U+FFFE and U+FFFF are replaced. -/
def lenientChar (c : Char) : Char := if c.val.toNat = 0xFFFE ∨ c.val.toNat = 0xFFFF then '\uFFFD' else c

theorem reserved_iff {ch : ℕ} (h : ch ≤ 0xFFFF) : ch &&& 0xFFFE = 0xFFFE ↔ ch = 0xFFFE ∨ ch = 0xFFFF := by
  constructor
  · intro heq
    have := Nat.and_le_left (n := ch) (m := 0xFFFE)
    omega
  · rintro (rfl | rfl) <;> rfl

theorem val_lt (c : Char) : c.val.toNat < 0xD800 ∨ 0xDFFF < c.val.toNat ∧ c.val.toNat < 0x110000 := c.valid

theorem lenientUnits_val (c : Char) : lenientUnits c.val.toNat = utf16Char (lenientChar c) := by
  have hval := val_lt c
  by_cases hbmp : c.val.toNat ≤ 0xFFFF
  · have hiff := reserved_iff hbmp
    rw [lenientUnits, if_pos hbmp, lenientChar]
    by_cases hres : c.val.toNat = 0xFFFE ∨ c.val.toNat = 0xFFFF
    · rw [if_pos (.inr (hiff.mpr hres)), if_pos hres]
      rfl
    · rw [if_neg (by rw [hiff]; omega), if_neg hres, utf16Char, if_pos (by omega)]
  · have hshift : (c.val.toNat - 0x10000) >>> 10 = (c.val.toNat - 0x10000) / 0x400 := Nat.shiftRight_eq_div_pow _ 10
    have hmask : (c.val.toNat - 0x10000) &&& 0x3FF = (c.val.toNat - 0x10000) % 0x400 :=
      Nat.and_two_pow_sub_one_eq_mod _ 10
    rw [lenientUnits, if_neg hbmp, if_neg (by omega), lenientChar, if_neg (by omega), utf16Char, if_neg (by omega),
      hshift, hmask, Nat.add_comm 0xD800, Nat.add_comm 0xDC00]

/-- The first byte of a legal sequence of the character `v`, and the bytes behind it. -/
structure Sequence (v : ℕ) (b : UInt8) (trailing : Bytes) : Prop where
  count : trailingBytesForUTF8 b = trailing.length
  legal : ∀ rest, isLegalUTF8 (b :: (trailing ++ rest)) (trailing.length + 1) = true
  value : sequenceValue (b :: trailing) = v

theorem toNat_ofNat {n : ℕ} (h : n < 256) : (UInt8.ofNat n).toNat = n := by
  rw [UInt8.toNat_ofNat', Nat.mod_eq_of_lt h]

theorem toNat_trailing (n : ℕ) : (UInt8.ofNat (n % 0x40 + 0x80)).toNat = n % 0x40 + 0x80 := toNat_ofNat (by omega)

section
variable {v : ℕ}

theorem sequence_one (h : v ≤ 0x7F) : Sequence v (UInt8.ofNat v) [] := by
  have hv : (UInt8.ofNat v).toNat = v := toNat_ofNat (by omega)
  constructor
  · rw [trailingBytesForUTF8, hv, if_pos (by omega)]
    rfl
  · intro rest
    simp [isLegalUTF8, hv, -UInt8.toNat_ofNat']
    omega
  · simp [sequenceValue, offsetsFromUTF8, hv, -UInt8.toNat_ofNat']

theorem sequence_two (h : 0x80 ≤ v) (h' : v ≤ 0x7FF) :
    Sequence v (UInt8.ofNat (v / 64 % 0x20 + 0xC0)) [UInt8.ofNat (v % 0x40 + 0x80)] := by
  have h0 : (UInt8.ofNat (v / 64 % 0x20 + 0xC0)).toNat = v / 64 % 0x20 + 0xC0 := toNat_ofNat (by omega)
  have h1 := toNat_trailing v
  constructor
  · rw [trailingBytesForUTF8, h0, if_neg (by omega), if_pos (by omega)]
    rfl
  · intro rest
    simp only [isLegalUTF8, List.length_cons, List.length_nil, List.cons_append, List.getD_cons_zero,
      List.getD_cons_succ, h0, h1, decide_eq_true_eq]
    split_ifs <;> omega
  · simp only [sequenceValue, offsetsFromUTF8, List.foldl_cons, List.foldl_nil, List.length_cons, List.length_nil, h0, h1]
    omega

theorem sequence_three (h : 0x800 ≤ v) (h' : v ≤ 0xFFFF) : Sequence v (UInt8.ofNat (v / 4096 % 0x10 + 0xE0))
    [UInt8.ofNat (v / 64 % 0x40 + 0x80), UInt8.ofNat (v % 0x40 + 0x80)] := by
  have h0 : (UInt8.ofNat (v / 4096 % 0x10 + 0xE0)).toNat = v / 4096 % 0x10 + 0xE0 := toNat_ofNat (by omega)
  have h1 := toNat_trailing (v / 64)
  have h2 := toNat_trailing v
  constructor
  · rw [trailingBytesForUTF8, h0, if_neg (by omega), if_neg (by omega), if_pos (by omega)]
    rfl
  · intro rest
    simp only [isLegalUTF8, List.length_cons, List.length_nil, List.cons_append, List.getD_cons_zero,
      List.getD_cons_succ, h0, h1, h2, decide_eq_true_eq]
    split_ifs <;> omega
  · simp only [sequenceValue, offsetsFromUTF8, List.foldl_cons, List.foldl_nil, List.length_cons, List.length_nil,
      h0, h1, h2]
    omega

theorem sequence_four (h : 0x10000 ≤ v) (h' : v < 0x110000) : Sequence v (UInt8.ofNat (v / 262144 % 0x08 + 0xF0))
    [UInt8.ofNat (v / 4096 % 0x40 + 0x80), UInt8.ofNat (v / 64 % 0x40 + 0x80), UInt8.ofNat (v % 0x40 + 0x80)] := by
  have h0 : (UInt8.ofNat (v / 262144 % 0x08 + 0xF0)).toNat = v / 262144 % 0x08 + 0xF0 := toNat_ofNat (by omega)
  have h1 := toNat_trailing (v / 4096)
  have h2 := toNat_trailing (v / 64)
  have h3 := toNat_trailing v
  constructor
  · rw [trailingBytesForUTF8, h0, if_neg (by omega), if_neg (by omega), if_neg (by omega), if_pos (by omega)]
    rfl
  · intro rest
    simp only [isLegalUTF8, List.length_cons, List.length_nil, List.cons_append, List.getD_cons_zero,
      List.getD_cons_succ, h0, h1, h2, h3, decide_eq_true_eq]
    split_ifs <;> omega
  · simp only [sequenceValue, offsetsFromUTF8, List.foldl_cons, List.foldl_nil, List.length_cons, List.length_nil,
      h0, h1, h2, h3]
    omega

end

theorem sequence_utf8EncodeChar (c : Char) :
    ∃ b trailing, String.utf8EncodeChar c = b :: trailing ∧ Sequence c.val.toNat b trailing := by
  have hval := val_lt c
  unfold String.utf8EncodeChar
  dsimp only
  split_ifs with h1 h2 h3
  · exact ⟨_, _, rfl, sequence_one h1⟩
  · exact ⟨_, _, rfl, sequence_two (by omega) h2⟩
  · exact ⟨_, _, rfl, sequence_three (by omega) h3⟩
  · exact ⟨_, _, rfl, sequence_four (by omega) (by omega)⟩

theorem units_utf8EncodeChar (c : Char) (rest : Bytes) : units (String.utf8EncodeChar c ++ rest) =
    (units rest).map (utf16Char (lenientChar c) ++ ·) := by
  obtain ⟨b, trailing, hc, hseq⟩ := sequence_utf8EncodeChar c
  have hlen : ¬ (b :: (trailing ++ rest)).length ≤ trailingBytesForUTF8 b := by
    rw [hseq.count, List.length_cons, List.length_append]
    omega
  rw [hc, List.cons_append, units_legal hlen (by rw [hseq.count, hseq.legal]; simp), hseq.count, List.take_succ_cons,
    List.take_left' rfl, List.drop_left' rfl, hseq.value, lenientUnits_val]

theorem units_utf8 (text : List Char) : units (utf8 text) = some (utf16 (text.map lenientChar)) := by
  induction text with
  | nil =>
    rw [utf8, List.flatMap_nil, units]
    rfl
  | cons c text ih =>
    have hcons : utf8 (c :: text) = String.utf8EncodeChar c ++ utf8 text := List.flatMap_cons
    rw [hcons, units_utf8EncodeChar, ih]
    rfl

end GnuPoc.Pkg
