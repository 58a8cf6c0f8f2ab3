import GnuPoc.Pkg.Lexer
import Mathlib.Data.List.TakeWhile

/-!
# GnuPoc.Pkg.Literal — the numbers one can write in a package file

A `Literal` is decimal digits, or `0x` with hexadecimal digits, behind an optional sign.  `wcstoul` gives its
value, on 64 bits (`convertTemp_literal`).
-/

namespace GnuPoc.Pkg

/-! ### Literals -/

inductive Numeral : List UInt16 → ℕ → Prop
  | decimal {digits : List UInt16} (hne : digits ≠ []) (h : ∀ d ∈ digits, iswdigit d.toUInt32 = true) :
    Numeral digits (digitsNumber 10 (digits.map UInt16.toUInt32))
  | hexadecimal {digits : List UInt16} (hne : digits ≠ []) (h : ∀ d ∈ digits, iswxdigit d.toUInt32 = true) :
    Numeral (48 :: 120 :: digits) (digitsNumber 16 (digits.map UInt16.toUInt32))

inductive Literal : List UInt16 → ℤ → Prop
  | unsigned {u : List UInt16} {n : ℕ} (h : Numeral u n) : Literal u n
  | plus {u : List UInt16} {n : ℕ} (h : Numeral u n) : Literal (43 :: u) n
  | minus {u : List UInt16} {n : ℕ} (h : Numeral u n) : Literal (45 :: u) (-n)

/-! ### Characters -/

theorem iswdigit_iff {c : UInt32} : iswdigit c = true ↔ 48 ≤ c.toNat ∧ c.toNat ≤ 57 := by
  simp [iswdigit, UInt32.le_iff_toNat_le]

theorem iswspace_iff {c : UInt32} : iswspace c = true ↔ (9 ≤ c.toNat ∧ c.toNat ≤ 13) ∨ c.toNat = 32 := by
  simp [iswspace, UInt32.le_iff_toNat_le, ← UInt32.toNat_inj]

theorem iswxdigit_of_iswdigit {c : UInt32} (h : iswdigit c = true) : iswxdigit c = true := by
  rw [iswxdigit, h, Bool.true_or, Bool.true_or]

theorem isNumberChar_of_iswxdigit {u : UInt16} (h : iswxdigit u.toUInt32 = true) : isNumberChar u = true := by
  rw [isNumberChar, h, Bool.true_or]

theorem takeWhile_map_self {p : UInt32 → Bool} {digits : List UInt16} (h : ∀ d ∈ digits, p d.toUInt32 = true) :
    (digits.map UInt16.toUInt32).takeWhile p = digits.map UInt16.toUInt32 := by
  rw [List.takeWhile_eq_self_iff]
  rintro _ hc
  obtain ⟨d, hd, rfl⟩ := List.mem_map.mp hc
  exact h d hd

/-! ### What `wcstoul` makes of a numeral -/

theorem startsHex_cons_of_ne {c d : UInt32} {w : WStr} (h : towlower d ≠ 120) : startsHex (c :: d :: w) = false := by
  simp [startsHex, h]

theorem towlower_digit {c : UInt32} (h : iswdigit c = true) : towlower c = c := by
  have := iswdigit_iff.mp h
  rw [towlower, if_neg]
  rw [UInt32.le_iff_toNat_le, UInt32.le_iff_toNat_le]
  simp
  omega

theorem startsHex_digits {w : WStr} (h : ∀ c ∈ w, iswdigit c = true) : startsHex w = false := by
  rcases w with - | ⟨c, - | ⟨d, w⟩⟩
  · rfl
  · simp [startsHex]
  · have hd := h d (by simp)
    refine startsHex_cons_of_ne ?_
    rw [towlower_digit hd]
    rintro rfl
    exact absurd hd (by decide)

def numeralBase (w : WStr) : ℕ := if startsHex w then 16 else 10

/-- The digits of a numeral are all that counts, and `0x` stands nowhere else in it. -/
theorem Numeral.digits {u : List UInt16} {n : ℕ} (h : Numeral u n) {w : WStr} (hw : w = u.map UInt16.toUInt32) :
    numberDigits (numeralBase w) w ≠ [] ∧ digitsNumber (numeralBase w) (numberDigits (numeralBase w) w) = n ∧
      startsHex w.tail = false := by
  subst hw
  cases h with
  | decimal hne h =>
    have hmap : ∀ c ∈ u.map UInt16.toUInt32, iswdigit c = true := by
      intro c hc
      obtain ⟨d, hd, rfl⟩ := List.mem_map.mp hc
      exact h d hd
    rw [numeralBase, startsHex_digits hmap, if_neg (by simp)]
    have hdigits : numberDigits 10 (u.map UInt16.toUInt32) = u.map UInt16.toUInt32 := by
      simpa [numberDigits] using takeWhile_map_self h
    rw [hdigits]
    refine ⟨by simpa using hne, rfl, startsHex_digits fun c hc => hmap c (List.mem_of_mem_tail hc)⟩
  | @hexadecimal digits hne h =>
    have hdigits : numberDigits 16 ((48 :: 120 :: digits).map UInt16.toUInt32) =
        digits.map UInt16.toUInt32 := by
      have hstart : startsHex (48 :: 120 :: digits.map UInt16.toUInt32) = true := by simp [startsHex, towlower]
      simpa [numberDigits, hstart] using takeWhile_map_self h
    have hbase : numeralBase ((48 :: 120 :: digits).map UInt16.toUInt32) = 16 := by
      simp [numeralBase, startsHex, towlower]
    rw [hbase, hdigits]
    refine ⟨by simpa using hne, rfl, ?_⟩
    rcases digits with - | ⟨d, digits⟩
    · exact absurd rfl hne
    · simp [startsHex, towlower]

variable {u : List UInt16}

theorem Numeral.head {n : ℕ} (h : Numeral u n) :
    ∃ d rest, u = d :: rest ∧ iswdigit d.toUInt32 = true ∧ ∀ r ∈ rest, isNumberChar r = true := by
  cases h with
  | decimal hne h =>
    obtain ⟨d, rest, rfl⟩ := List.exists_cons_of_ne_nil hne
    refine ⟨d, rest, rfl, h d List.mem_cons_self, fun r hr => ?_⟩
    exact isNumberChar_of_iswxdigit (iswxdigit_of_iswdigit (h r (List.mem_cons_of_mem _ hr)))
  | @hexadecimal digits hne h =>
    refine ⟨48, 120 :: digits, rfl, rfl, fun r hr => ?_⟩
    rcases List.mem_cons.mp hr with rfl | hr
    · rfl
    · exact isNumberChar_of_iswxdigit (h r hr)

theorem digit_plain {c : UInt32} (h : iswdigit c = true) : iswspace c = false ∧ c ≠ 45 ∧ c ≠ 43 ∧ c ≠ 0 := by
  have hc := iswdigit_iff.mp h
  refine ⟨?_, ?_, ?_, ?_⟩
  · rw [← Bool.not_eq_true, iswspace_iff]
    omega
  all_goals
    rintro rfl
    exact absurd h (by decide)

/-- What `wcstoul` gives for the integer `z`. -/
def convertedInt (z : ℤ) : Converted :=
  if 18446744073709551616 ≤ z.natAbs then ⟨0xFFFFFFFFFFFFFFFF, true, true⟩ else ⟨UInt64.ofInt z, true, false⟩

theorem ofInt_natCast (n : ℕ) : UInt64.ofInt (n : ℤ) = UInt64.ofNat n := by
  simp [UInt64.ofInt, ← UInt64.toNat_inj]
  omega

theorem wcstoul_numeral {n : ℕ} (h : Numeral u n) {w : WStr} (hw : w = u.map UInt16.toUInt32) :
    wcstoul (numeralBase w) w = convertedInt n ∧
      wcstoul (numeralBase w) (43 :: w) = convertedInt n ∧
      wcstoul (numeralBase w) (45 :: w) = convertedInt (-n) := by
  obtain ⟨hne, hn, -⟩ := h.digits hw
  obtain ⟨d, rest, rfl, hd, -⟩ := h.head
  obtain ⟨c, w', rfl⟩ : ∃ c w', w = c :: w' := ⟨d.toUInt32, rest.map UInt16.toUInt32, hw⟩
  obtain rfl : c = d.toUInt32 := (List.cons.inj hw).1
  obtain ⟨hspace, hminus, hplus, -⟩ := digit_plain hd
  have h43 : iswspace 43 = false := rfl
  have h45 : iswspace 45 = false := rfl
  have hneg : -UInt64.ofNat n = UInt64.ofInt (-n) := by
    rw [UInt64.ofInt_neg, ofInt_natCast]
  refine ⟨?_, ?_, ?_⟩
  · simp [wcstoul, hspace, hminus, hplus, hne, hn, convertedInt, ofInt_natCast]
  · simp [wcstoul, h43, hne, hn, convertedInt, ofInt_natCast]
  · simp [wcstoul, h45, hne, hn, convertedInt, hneg]

theorem cstring_of_ne {w : WStr} (h : ∀ c ∈ w, c ≠ 0) : cstring w = w := by
  rw [cstring, List.takeWhile_eq_self_iff]
  intro c hc
  simpa using h c hc

theorem Numeral.ne_zero {n : ℕ} (h : Numeral u n) : ∀ c ∈ u.map UInt16.toUInt32, c ≠ 0 := by
  rintro _ hc rfl
  obtain ⟨r, hr, hzero⟩ := List.mem_map.mp hc
  obtain rfl : r = 0 := by simpa [← UInt16.toNat_inj, ← UInt32.toNat_inj] using hzero
  obtain ⟨d, rest, rfl, hd, hrest⟩ := h.head
  rcases List.mem_cons.mp hr with rfl | hr
  · exact absurd hd (by decide)
  · exact absurd (hrest 0 hr) (by decide)

/-- `GetNumericToken` converts a literal to its value. -/
theorem convertTemp_literal {z : ℤ} (h : Literal u z) : convertTemp (u.map UInt16.toUInt32) = convertedInt z := by
  cases h with
  | unsigned h =>
    rw [convertTemp, (h.digits rfl).2.2, Bool.or_false, cstring_of_ne h.ne_zero]
    exact (wcstoul_numeral h rfl).1
  | @plus u n h =>
    have hsign : startsHex ((43 :: u).map UInt16.toUInt32) = false := by
      rw [startsHex]
      rcases u with - | ⟨d, u⟩ <;> simp [towlower]
    rw [convertTemp, hsign, Bool.false_or, cstring_of_ne (by simpa using h.ne_zero)]
    exact (wcstoul_numeral h rfl).2.1
  | @minus u n h =>
    have hsign : startsHex ((45 :: u).map UInt16.toUInt32) = false := by
      rw [startsHex]
      rcases u with - | ⟨d, u⟩ <;> simp [towlower]
    rw [convertTemp, hsign, Bool.false_or, cstring_of_ne (by simpa using h.ne_zero)]
    exact (wcstoul_numeral h rfl).2.2

theorem Literal.tail_numberChar {z : ℤ} (h : Literal u z) : u ≠ [] ∧ ∀ r ∈ u.tail, isNumberChar r = true := by
  cases h with
  | unsigned h =>
    obtain ⟨d, rest, rfl, -, hrest⟩ := h.head
    exact ⟨by simp, hrest⟩
  | plus h | minus h =>
    obtain ⟨d, rest, rfl, hd, hrest⟩ := h.head
    refine ⟨by simp, fun r hr => ?_⟩
    rcases List.mem_cons.mp hr with rfl | hr
    · exact isNumberChar_of_iswxdigit (iswxdigit_of_iswdigit hd)
    · exact hrest r hr

theorem Literal.head {z : ℤ} (h : Literal u z) :
    iswdigit (u.headD 0).toUInt32 = true ∨ u.headD 0 = 43 ∨ u.headD 0 = 45 := by
  cases h with
  | unsigned h =>
    obtain ⟨d, rest, rfl, hd, -⟩ := h.head
    exact .inl hd
  | plus h => exact .inr (.inl rfl)
  | minus h => exact .inr (.inr rfl)

theorem Literal.head_ne_quote {z : ℤ} (h : Literal u z) : u.headD 0 ≠ 34 := by
  cases h with
  | unsigned h =>
    obtain ⟨d, rest, rfl, hd, -⟩ := h.head
    rintro rfl
    exact absurd hd (by decide)
  | plus h | minus h =>
    rw [List.headD_cons]
    decide

end GnuPoc.Pkg
