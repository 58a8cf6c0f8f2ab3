import GnuPoc.Rcomp.ResourceItem
import Mathlib.Data.Int.Bitwise

/-!
# GnuPoc.Rcomp.NaturalExpression — numbers of the source (`rcomp.y`, `rcomp.l`, `numval.cpp`)

A natural expression is computed in `long`, goes through decimal text, and is converted again to the type of its member or
of OFFSET.  A `long` has 64 bits; a result that it does not hold, a division by zero and a token that is too long for
`yylval` are undefined.
-/

namespace GnuPoc.Rcomp

open GnuPoc.Lib

/-! ### Source -/

/-- `L_NUM_NATURAL`. -/
inductive NumNatural
  | decimal (chars : List Char) (hchars : chars ≠ []) (h : ∀ c ∈ chars, c.isDigit = true)
  | hex (chars : List Char) (hchars : chars ≠ []) (h : ∀ c ∈ chars, isxdigit c = true)

/-- `yytext`. -/
def NumNatural.text : NumNatural → List Char
  | .decimal chars _ _ => chars
  | .hex chars _ _ => '0' :: 'x' :: chars

inductive NaturalOp
  | plus | minus | times | over | or
  deriving DecidableEq

/-- The rules of `natural_expression_numeric`. -/
inductive Expression
  | natural (n : NumNatural)
  | binary (op : NaturalOp) (a b : Expression)
  | negated (a : Expression)
  | braced (a : Expression)

/-! ### The code -/

/-- Why there is no value: the run stops, or the language does not say what happens. -/
inductive Fault
  | stops (s : Stop)
  | undefined
  deriving DecidableEq

def Fault.lift {α : Type} (run : Run α) : Except Fault α := run.mapError .stops

@[simp] theorem fault_ok_bind {α β : Type} (a : α) (f : α → Except Fault β) :
    ((Except.ok a : Except Fault α) >>= f) = f a := rfl

def InLong (x : ℤ) : Prop := -9223372036854775808 ≤ x ∧ x < 9223372036854775808

instance (x : ℤ) : Decidable (InLong x) := inferInstanceAs (Decidable (_ ∧ _))

/-- A result in `long`. -/
def long (x : ℤ) : Except Fault ℤ := if InLong x then .ok x else .error .undefined

/-- The operation on numbers of any size; a quotient is truncated. -/
def NaturalOp.value : NaturalOp → ℤ → ℤ → ℤ
  | .plus, a, b => a + b
  | .minus, a, b => a - b
  | .times, a, b => a * b
  | .over, a, b => a.tdiv b
  | .or, a, b => Int.lor a b

def NaturalOp.run (op : NaturalOp) (a b : ℤ) : Except Fault ℤ :=
  if op = .over ∧ b = 0 then .error .undefined else long (op.value a b)

/-- `strcpy(yylval.Value, yytext)`, `NumericValue v($1, L_LONG)` and `v.GetLong()`. -/
def NumNatural.GetLong (n : NumNatural) : Except Fault ℤ :=
  if 1024 ≤ n.text.length then .error .undefined
  else do
    let v ← Fault.lift (ConvertToNatural (String.ofList n.text))
    .ok v.iULongValue.toInt64.toInt

def natural_expression_numeric : Expression → Except Fault ℤ
  | .natural n => n.GetLong
  | .binary op a b => do
    let x ← natural_expression_numeric a
    let y ← natural_expression_numeric b
    op.run x y
  | .negated a => do
    let x ← natural_expression_numeric a
    long (-x)
  | .braced a => natural_expression_numeric a

/-- The digits of `x`, into an array that has `room` more elements. -/
def ltoaDigits : ℕ → ℕ → Option (List Char)
  | _, 0 => some []
  | 0, _ + 1 => none
  | room + 1, x => (ltoaDigits room (x / 10)).map fun digits => digits ++ [Char.ofNat (x % 10 + '0'.toNat)]

def ltoa (Source : ℤ) : Except Fault (List Char) :=
  if ¬ InLong (-Source) then .error .undefined
  else if Source = 0 then .ok ['0']
  else
    match ltoaDigits 10 Source.natAbs with
    | none => .error (.stops .assertion)
    | some digits => .ok (if Source < 0 then '-' :: digits else digits)

def natural_expression (e : Expression) : Except Fault String := do
  let x ← natural_expression_numeric e
  let s ← ltoa x
  .ok (String.ofList s)

/-- `BYTE`, `WORD` and `LONG`. -/
def DataType.member : DataType → ItemType
  | .L_BYTE => .L_BYTE
  | .L_WORD => .L_WORD
  | .L_LONG => .L_LONG

/-- What a member of the type streams out when the expression is assigned to it. -/
def assignNatural (conv : Conversions) (type : DataType) (e : Expression) : Except Fault (List Item) := do
  let value ← natural_expression e
  Fault.lift (StreamOutSingleValue conv value 0 type.member)

/-- `CurrentId=((long) NumericValue($2, L_LONG).GetULong() )`. -/
def offset_statement (e : Expression) : Except Fault ℤ := do
  let value ← natural_expression e
  let v ← Fault.lift (ConvertToNatural value)
  .ok v.iULongValue.toInt64.toInt

/-! ### The value of an expression -/

def valueOf (base : ℕ) (chars : List Char) : ℕ := chars.foldl (fun n c => n * base + DigitValue c) 0

def NumNatural.value : NumNatural → ℕ
  | .decimal chars _ _ => valueOf 10 chars
  | .hex chars _ _ => valueOf 16 chars

def Expression.value : Expression → ℤ
  | .natural n => n.value
  | .binary op a b => op.value a.value b.value
  | .negated a => -a.value
  | .braced a => a.value

/-- No division by zero. -/
def Expression.HasValue : Expression → Prop
  | .natural _ => True
  | .binary op a b => a.HasValue ∧ b.HasValue ∧ ¬ (op = .over ∧ b.value = 0)
  | .negated a => a.HasValue
  | .braced a => a.HasValue

/-- A number in two's complement, least significant byte first. -/
def leInt : ℕ → ℤ → Bytes
  | 0, _ => []
  | n + 1, v => UInt8.ofNat (v % 256).toNat :: leInt n (v / 256)

/-- From the smallest signed to the largest unsigned value of a width. -/
def DataType.InRange : DataType → ℤ → Prop
  | .L_BYTE, v => -128 ≤ v ∧ v ≤ 255
  | .L_WORD, v => -32768 ≤ v ∧ v ≤ 65535
  | .L_LONG, v => -2147483648 ≤ v ∧ v ≤ 4294967295

/-- What a natural expression is given to. -/
inductive Receiver
  | member (type : DataType)
  | offset

/-- OFFSET converts to a LONG. -/
def Receiver.type : Receiver → DataType
  | .member type => type
  | .offset => .L_LONG

/-- Exactly the value of the expression is used. -/
def Receiver.Takes (conv : Conversions) (e : Expression) : Receiver → Prop
  | .member type => assignNatural conv type e = .ok [.StreamIn (leInt (GetSize type) e.value)]
  | .offset => offset_statement e = .ok e.value

/-- The run stops with an error line. -/
def Receiver.Stops (conv : Conversions) (e : Expression) : Receiver → Prop
  | .member type => ∃ status, assignNatural conv type e = .error (.stops (.exits status))
  | .offset => ∃ status, offset_statement e = .error (.stops (.exits status))

def Receiver.StopsOrTakes (conv : Conversions) (e : Expression) (r : Receiver) : Prop :=
  r.Stops conv e ∨ r.Takes conv e ∧ e.HasValue ∧ r.type.InRange e.value

/-- Tokens that fit `yylval` and a `long`, no division by zero, and no intermediate value that a `long` does not hold. -/
def Expression.Fits : Expression → Prop
  | .natural n => n.text.length < 1024 ∧ n.value < 9223372036854775808
  | .binary op a b => a.Fits ∧ b.Fits ∧ ¬ (op = .over ∧ b.value = 0) ∧ InLong (op.value a.value b.value)
  | .negated a => a.Fits ∧ InLong (-a.value)
  | .braced a => a.Fits

def Expression.NumbersInLong : Expression → Prop
  | .natural n => n.value < 9223372036854775808
  | .binary _ a b => a.NumbersInLong ∧ b.NumbersInLong
  | .negated a => a.NumbersInLong
  | .braced a => a.NumbersInLong

/-- The condition: the value can be computed, is one of the type, and is not negative for OFFSET. -/
structure Receiver.Fits (e : Expression) (r : Receiver) : Prop where
  computed : e.Fits
  inRange : r.type.InRange e.value
  natural : r = .offset → 0 ≤ e.value

/-! ### Digits -/

theorem digits_eq {base : ℕ} {bHexNumber : Bool} {chars : List Char}
    (hnext : ∀ c ∈ chars, ∀ n : ℕ,
      nextDigit bHexNumber (UInt64.ofNat n) c = .ok (UInt64.ofNat (n * base + DigitValue c)))
    {pos n : ℕ} (hpos : pos + chars.length < 10000) :
    digits bHexNumber pos chars (UInt64.ofNat n) =
      .ok (UInt64.ofNat (chars.foldl (fun n c => n * base + DigitValue c) n)) := by
  induction chars generalizing pos n with
  | nil => rfl
  | cons c chars ih =>
    rw [List.length_cons] at hpos
    have hshort : decide (pos + 1 < 10000) = true := decide_eq_true (by omega)
    rw [digits, hnext c List.mem_cons_self, run_ok_bind, hshort, assert_true, run_ok_bind,
      ih (fun c hc => hnext c (List.mem_cons_of_mem _ hc)) (by omega)]
    rfl

theorem nextDigit_decimal {c : Char} (hc : c.isDigit = true) (n : ℕ) :
    nextDigit false (UInt64.ofNat n) c = .ok (UInt64.ofNat (n * 10 + DigitValue c)) := by
  rw [nextDigit, if_neg Bool.false_ne_true, if_pos hc, UInt64.ofNat_add, UInt64.ofNat_mul]
  rfl

theorem nextDigit_hex {c : Char} (hc : isxdigit c = true) (n : ℕ) :
    nextDigit true (UInt64.ofNat n) c = .ok (UInt64.ofNat (n * 16 + DigitValue c)) := by
  rw [nextDigit, if_pos rfl, if_pos hc, UInt64.ofNat_add, UInt64.ofNat_mul]
  rfl

variable (conv : Conversions) {e : Expression} {chars : List Char}

theorem not_prefix_of_isDigit (h : ∀ c ∈ chars, c.isDigit = true) :
    ['0', 'x'].isPrefixOf chars = false ∧ ['-'].isPrefixOf chars = false := by
  have hx : 'x'.isDigit = false := by decide
  have hminus : '-'.isDigit = false := by decide
  constructor
  · rw [Bool.eq_false_iff]
    intro hprefix
    obtain ⟨rest, hrest⟩ := List.isPrefixOf_iff_prefix.mp hprefix
    have hmem := h 'x' (by rw [← hrest]; simp)
    rw [hx] at hmem
    cases hmem
  · rw [Bool.eq_false_iff]
    intro hprefix
    obtain ⟨rest, hrest⟩ := List.isPrefixOf_iff_prefix.mp hprefix
    have hmem := h '-' (by rw [← hrest]; simp)
    rw [hminus] at hmem
    cases hmem

theorem convert_decimal (h : ∀ c ∈ chars, c.isDigit = true) (hlength : chars.length < 10000) :
    ConvertToNatural (String.ofList chars) = .ok ⟨UInt64.ofNat (valueOf 10 chars), UInt64.ofNat (valueOf 10 chars)⟩ := by
  obtain ⟨hhex, hminus⟩ := not_prefix_of_isDigit h
  have hdigits := digits_eq (fun c hc n => nextDigit_decimal (h c hc) n) (n := 0)
    (by omega : 0 + chars.length < 10000)
  unfold ConvertToNatural
  simp only [String.toList_ofList, hhex, Bool.false_eq_true, if_false, List.drop_zero, hminus]
  rw [show (0 : UInt64) = UInt64.ofNat 0 from rfl, hdigits]
  rfl

theorem convert_negative (h : ∀ c ∈ chars, c.isDigit = true) (hlength : chars.length + 1 < 10000) :
    ConvertToNatural (String.ofList ('-' :: chars)) =
      .ok ⟨UInt64.ofNat (valueOf 10 chars), (UInt64.ofNat (valueOf 10 chars) ^^^ 0xFFFFFFFF) + 1⟩ := by
  have hdigits := digits_eq (fun c hc n => nextDigit_decimal (h c hc) n) (n := 0)
    (by omega : 1 + chars.length < 10000)
  have hhex : ['0', 'x'].isPrefixOf ('-' :: chars) = false := rfl
  have hminus : ['-'].isPrefixOf ('-' :: chars) = true := rfl
  unfold ConvertToNatural
  simp only [String.toList_ofList, hhex, Bool.false_eq_true, if_false, List.drop_zero, hminus, if_true, Nat.zero_add,
    List.drop_succ_cons]
  rw [show (0 : UInt64) = UInt64.ofNat 0 from rfl, hdigits]
  rfl

theorem convert_hex (h : ∀ c ∈ chars, isxdigit c = true) (hlength : chars.length + 2 < 10000) :
    ConvertToNatural (String.ofList ('0' :: 'x' :: chars)) =
      .ok ⟨UInt64.ofNat (valueOf 16 chars), UInt64.ofNat (valueOf 16 chars)⟩ := by
  have hdigits := digits_eq (fun c hc n => nextDigit_hex (h c hc) n) (n := 0)
    (by omega : 2 + chars.length < 10000)
  have hhex : ['0', 'x'].isPrefixOf ('0' :: 'x' :: chars) = true := rfl
  have hminus : ['-'].isPrefixOf chars = false := by
    rw [Bool.eq_false_iff]
    intro hprefix
    obtain ⟨rest, hrest⟩ := List.isPrefixOf_iff_prefix.mp hprefix
    have hmem := h '-' (by rw [← hrest]; simp)
    have hnot : isxdigit '-' = false := by decide
    rw [hnot] at hmem
    cases hmem
  unfold ConvertToNatural
  simp only [String.toList_ofList, hhex, if_true, List.drop_succ_cons, List.drop_zero, hminus, Bool.false_eq_true, if_false]
  rw [show (0 : UInt64) = UInt64.ofNat 0 from rfl, hdigits]
  rfl

theorem toInt_ofNat {n : ℕ} (h : n < 9223372036854775808) : (UInt64.ofNat n).toInt64.toInt = n := by
  have hnat : (UInt64.ofNat n).toBitVec.toNat = n := by
    show (UInt64.ofNat n).toNat = n
    rw [UInt64.toNat_ofNat_of_lt' (by show n < 18446744073709551616; omega)]
  show (UInt64.ofNat n).toBitVec.toInt = n
  rw [BitVec.toInt_eq_toNat_of_lt (by rw [hnat]; omega), hnat]

/-- The `long` of a token that fits is the number it says. -/
theorem getLong_eq {n : NumNatural} (htext : n.text.length < 1024) (hvalue : n.value < 9223372036854775808) :
    n.GetLong = .ok n.value := by
  have hsigned := toInt_ofNat hvalue
  rw [NumNatural.GetLong, if_neg (by omega)]
  cases n with
  | decimal chars _ h =>
    rw [NumNatural.text, convert_decimal h (by rw [NumNatural.text] at htext; omega)]
    exact congrArg _ hsigned
  | hex chars _ h =>
    rw [NumNatural.text, convert_hex h (by rw [NumNatural.text, List.length_cons, List.length_cons] at htext; omega)]
    exact congrArg _ hsigned

/-! ### Decimal text -/

theorem digit_char : ∀ d < 10,
    (Char.ofNat (d + '0'.toNat)).isDigit = true ∧ DigitValue (Char.ofNat (d + '0'.toNat)) = d := by
  decide

theorem ltoaDigits_succ (room : ℕ) {x : ℕ} (h : x ≠ 0) :
    ltoaDigits (room + 1) x = (ltoaDigits room (x / 10)).map fun digits => digits ++ [Char.ofNat (x % 10 + '0'.toNat)] := by
  cases x with
  | zero => exact absurd rfl h
  | succ x => rw [ltoaDigits]; exact Nat.succ_ne_zero x

theorem ltoaDigits_of_lt {room x : ℕ} (h : x < 10 ^ room) : ∃ digits, ltoaDigits room x = some digits ∧
    (∀ c ∈ digits, c.isDigit = true) ∧ digits.length ≤ room ∧ valueOf 10 digits = x := by
  induction room generalizing x with
  | zero =>
    obtain rfl : x = 0 := by simpa using h
    exact ⟨[], rfl, by simp, Nat.le_refl _, rfl⟩
  | succ room ih =>
    rcases Nat.eq_zero_or_pos x with rfl | hpos
    · exact ⟨[], rfl, by simp, Nat.zero_le _, rfl⟩
    obtain ⟨digits, hdigits, hall, hlength, hvalue⟩ := ih (x := x / 10) (by rw [Nat.pow_succ] at h; omega)
    obtain ⟨hdigit, hlast⟩ := digit_char (x % 10) (Nat.mod_lt _ (by decide))
    refine ⟨digits ++ [Char.ofNat (x % 10 + '0'.toNat)], ?_, ?_, ?_, ?_⟩
    · rw [ltoaDigits_succ room (by omega), hdigits]
      rfl
    · intro c hc
      rcases List.mem_append.mp hc with hc | hc
      · exact hall c hc
      · rw [List.mem_singleton.mp hc]
        exact hdigit
    · rw [List.length_append, List.length_singleton]
      omega
    · rw [valueOf, List.foldl_append, ← valueOf, hvalue, List.foldl_cons, List.foldl_nil, hlast]
      omega

theorem ltoaDigits_of_le {room x : ℕ} (h : 10 ^ room ≤ x) : ltoaDigits room x = none := by
  have hpos : 0 < 10 ^ room := Nat.pow_pos (by decide)
  induction room generalizing x with
  | zero =>
    cases x with
    | zero => omega
    | succ x => rfl
  | succ room ih =>
    rw [Nat.pow_succ] at h
    rw [ltoaDigits_succ room (by omega), ih (by omega) (Nat.pow_pos (by decide))]
    rfl

/-! ### Bytes -/

theorem leInt_eq {n : ℕ} {v k : ℤ} {m : ℕ} (h : v = m + 256 ^ n * k) : leInt n v = leBytes n m := by
  induction n generalizing v m with
  | zero => rfl
  | succ n ih =>
    rw [pow_succ, mul_comm _ (256 : ℤ), mul_assoc] at h
    have hlow : (v % 256).toNat = m % 256 := by omega
    rw [leInt, leBytes, hlow, ih (v := v / 256) (m := m / 256) (by omega)]

theorem xor_low (n : ℕ) : (n ^^^ 4294967295) % 4294967296 = 4294967295 - n % 4294967296 := by
  have hnot : (BitVec.ofNat 32 n ^^^ BitVec.allOnes 32).toNat = 4294967295 - n % 4294967296 := by
    rw [BitVec.xor_allOnes, BitVec.toNat_not, BitVec.toNat_ofNat]
  rw [← hnot, BitVec.toNat_xor, BitVec.toNat_ofNat]
  exact Nat.xor_mod_two_pow (a := n) (b := 4294967295) (n := 32)

/-- `(LongValue ^ 0xFFFFFFFF) + 1` negates the low 32 bits. -/
theorem negated_low (n : ℕ) :
    ∃ k : ℤ, -(n : ℤ) = (((UInt64.ofNat n ^^^ 0xFFFFFFFF) + 1).toNat : ℕ) + 4294967296 * k := by
  have hlow := xor_low (n % 18446744073709551616)
  have hsum : ((UInt64.ofNat n ^^^ 0xFFFFFFFF) + 1).toNat =
      ((n % 18446744073709551616 ^^^ 4294967295) + 1) % 18446744073709551616 := by
    rw [UInt64.toNat_add, UInt64.toNat_xor, UInt64.toNat_ofNat']
    rfl
  rw [hsum]
  exact ⟨(-(n : ℤ) - (((n % 18446744073709551616 ^^^ 4294967295) + 1) % 18446744073709551616 : ℕ)) / 4294967296,
    by omega⟩

/-! ### From a number to text and back -/

/-- The text of a number that has at most ten digits, and what it is converted to. -/
theorem ltoa_convert {v : ℤ} (h : v.natAbs < 10000000000) : ∃ s n, ltoa v = .ok s ∧ s ≠ [] ∧
    ConvertToNatural (String.ofList s) = .ok n ∧ n.iULongValue = UInt64.ofNat v.natAbs ∧
    ∃ k : ℤ, v = n.stored.toNat + 4294967296 * k := by
  have hlong : InLong (-v) := by
    unfold InLong
    omega
  rw [ltoa, if_neg (not_not.mpr hlong)]
  by_cases hzero : v = 0
  · subst hzero
    exact ⟨['0'], ⟨0, 0⟩, rfl, List.cons_ne_nil _ _, by decide, rfl, 0, rfl⟩
  obtain ⟨digits, hdigits, hall, hlength, hvalue⟩ := ltoaDigits_of_lt (by omega : v.natAbs < 10 ^ 10)
  rw [if_neg hzero, hdigits]
  have hne : digits ≠ [] := by
    rintro rfl
    have habs : 0 = v.natAbs := hvalue
    omega
  by_cases hneg : v < 0
  · refine ⟨'-' :: digits, _, congrArg Except.ok (if_pos hneg), List.cons_ne_nil _ _,
      convert_negative hall (by omega), ?_, ?_⟩
    · rw [hvalue]
    · obtain ⟨k, hk⟩ := negated_low v.natAbs
      rw [hvalue]
      refine ⟨k, ?_⟩
      dsimp only
      omega
  · refine ⟨digits, _, congrArg Except.ok (if_neg hneg), hne, convert_decimal hall (by omega), ?_, 0, ?_⟩
    · rw [hvalue]
    · rw [hvalue, UInt64.toNat_ofNat_of_lt' (by show v.natAbs < 18446744073709551616; omega)]
      omega

theorem ltoa_long {v : ℤ} (h : 10000000000 ≤ v.natAbs) :
    ∃ e, ltoa v = .error e ∧ ∀ status, e ≠ .stops (.exits status) := by
  rw [ltoa]
  split
  · exact ⟨.undefined, rfl, fun _ hne => by cases hne⟩
  · rw [if_neg (by omega), ltoaDigits_of_le (by omega : 10 ^ 10 ≤ v.natAbs)]
    exact ⟨.stops .assertion, rfl, fun _ hne => by cases hne⟩

/-! ### The computation -/

theorem numeric_of_fits (h : e.Fits) : natural_expression_numeric e = .ok e.value := by
  induction e with
  | natural n => exact getLong_eq h.1 h.2
  | binary op a b iha ihb =>
    obtain ⟨ha, hb, hdivisor, hlong⟩ := h
    rw [natural_expression_numeric, iha ha, ihb hb, fault_ok_bind, fault_ok_bind, NaturalOp.run, if_neg hdivisor, long,
      if_pos hlong]
    rfl
  | negated a ih =>
    rw [natural_expression_numeric, ih h.1, fault_ok_bind, long, if_pos h.2]
    rfl
  | braced a ih =>
    rw [natural_expression_numeric, ih h]
    rfl

/-- Where the tokens are numbers of a `long`, a computation that ends has met no overflow; the others stop without an
error line. -/
theorem numeric_cases (h : e.NumbersInLong) : e.Fits ∨ natural_expression_numeric e = .error .undefined := by
  induction e with
  | natural n =>
    by_cases htext : n.text.length < 1024
    · exact .inl ⟨htext, h⟩
    · rw [natural_expression_numeric, NumNatural.GetLong, if_pos (by omega)]
      exact .inr rfl
  | binary op a b iha ihb =>
    rcases iha h.1 with ha | ha
    · rcases ihb h.2 with hb | hb
      · rw [natural_expression_numeric, numeric_of_fits ha, numeric_of_fits hb, fault_ok_bind, fault_ok_bind, NaturalOp.run,
          long]
        by_cases hdivisor : op = .over ∧ b.value = 0
        · rw [if_pos hdivisor]
          exact .inr rfl
        · rw [if_neg hdivisor]
          by_cases hlong : InLong (op.value a.value b.value)
          · exact .inl ⟨ha, hb, hdivisor, hlong⟩
          · rw [if_neg hlong]
            exact .inr rfl
      · rw [natural_expression_numeric, numeric_of_fits ha, hb]
        exact .inr rfl
    · rw [natural_expression_numeric, ha]
      exact .inr rfl
  | negated a ih =>
    rcases ih h with ha | ha
    · rw [natural_expression_numeric, numeric_of_fits ha, fault_ok_bind, long]
      by_cases hlong : InLong (-a.value)
      · exact .inl ⟨ha, hlong⟩
      · rw [if_neg hlong]
        exact .inr rfl
    · rw [natural_expression_numeric, ha]
      exact .inr rfl
  | braced a ih => exact ih h

theorem hasValue_of_fits (h : e.Fits) : e.HasValue := by
  induction e with
  | natural n => trivial
  | binary op a b iha ihb => exact ⟨iha h.1, ihb h.2.1, h.2.2.1⟩
  | negated a ih => exact ih h.1
  | braced a ih => exact ih h

theorem digits_of_inRange {type : DataType} {v : ℤ} (h : type.InRange v) : v.natAbs < 10000000000 := by
  cases type with
  | L_BYTE => have hle : -128 ≤ v ∧ v ≤ 255 := h; omega
  | L_WORD => have hle : -32768 ≤ v ∧ v ≤ 65535 := h; omega
  | L_LONG => have hle : -2147483648 ≤ v ∧ v ≤ 4294967295 := h; omega

/-! ### Members and OFFSET -/

theorem streamOut_member (value : String) (type : DataType) :
    StreamOutSingleValue conv value 0 type.member = (do
      assert (0 < value.length)
      let bytes ← numberBytes type value
      .ok [.StreamIn bytes]) := by
  cases type with
  | L_BYTE => rfl
  | L_WORD => rfl
  | L_LONG => rfl

theorem given_of_short (h : e.Fits) (hshort : e.value.natAbs < 10000000000) :
    (∀ type, assignNatural conv type e = .ok [.StreamIn (leInt (GetSize type) e.value)]) ∧
      offset_statement e = .ok e.value.natAbs := by
  obtain ⟨s, n, hs, hne, hn, hnatural, k, hk⟩ := ltoa_convert hshort
  have htext : natural_expression e = .ok (String.ofList s) := by
    rw [natural_expression, numeric_of_fits h, fault_ok_bind, hs]
    rfl
  constructor
  · intro type
    have hpos : decide (0 < (String.ofList s).length) = true := by
      rw [String.length_ofList]
      exact decide_eq_true (List.length_pos_iff.mpr hne)
    have hbytes : leInt (GetSize type) e.value = leBytes (GetSize type) n.stored.toNat := by
      cases type with
      | L_BYTE => exact leInt_eq (k := 16777216 * k) (by rw [GetSize]; omega)
      | L_WORD => exact leInt_eq (k := 65536 * k) (by rw [GetSize]; omega)
      | L_LONG => exact leInt_eq (k := k) (by rw [GetSize]; omega)
    rw [assignNatural, htext, fault_ok_bind, streamOut_member, hpos, assert_true, run_ok_bind, numberBytes, hn, hbytes]
    rfl
  · rw [offset_statement, htext, fault_ok_bind, hn]
    show Except.ok n.iULongValue.toInt64.toInt = _
    rw [hnatural, toInt_ofNat (by omega)]

theorem given_of_long (h : e.Fits) (hlong : 10000000000 ≤ e.value.natAbs) :
    ∃ fault, (∀ status, fault ≠ .stops (.exits status)) ∧ (∀ type, assignNatural conv type e = .error fault) ∧
      offset_statement e = .error fault := by
  obtain ⟨fault, hfault, hline⟩ := ltoa_long hlong
  have htext : natural_expression e = .error fault := by
    rw [natural_expression, numeric_of_fits h, fault_ok_bind, hfault]
    rfl
  refine ⟨fault, hline, fun type => ?_, ?_⟩
  · rw [assignNatural, htext]
    rfl
  · rw [offset_statement, htext]
    rfl

theorem stopsOrTakes_of_error {conv : Conversions} {e : Expression} {fault : Fault} (r : Receiver)
    (hline : ∀ status, fault ≠ .stops (.exits status)) (hmember : ∀ type, assignNatural conv type e = .error fault)
    (hoffset : offset_statement e = .error fault) : ¬ r.StopsOrTakes conv e := by
  cases r with
  | member type =>
    rintro (⟨status, hstop⟩ | ⟨htakes, -⟩)
    · rw [hmember] at hstop
      exact hline status (Except.error.inj hstop)
    · have htakes' : assignNatural conv type e = .ok _ := htakes
      rw [hmember] at htakes'
      cases htakes'
  | offset =>
    rintro (⟨status, hstop⟩ | ⟨htakes, -⟩)
    · rw [hoffset] at hstop
      exact hline status (Except.error.inj hstop)
    · have htakes' : offset_statement e = .ok _ := htakes
      rw [hoffset] at htakes'
      cases htakes'

theorem stopsOrTakes_of_fits {r : Receiver} (h : r.Fits e) : r.StopsOrTakes conv e := by
  obtain ⟨hmember, hoffset⟩ := given_of_short conv h.computed (digits_of_inRange h.inRange)
  refine .inr ⟨?_, hasValue_of_fits h.computed, h.inRange⟩
  cases r with
  | member type => exact hmember type
  | offset =>
    have hnatural := h.natural rfl
    show offset_statement e = _
    rw [hoffset]
    exact congrArg _ (by omega)

/-- For numbers in the range of long the condition is needed as well. -/
theorem fits_of_stopsOrTakes {r : Receiver} (hnumbers : e.NumbersInLong) (h : r.StopsOrTakes conv e) : r.Fits e := by
  rcases numeric_cases hnumbers with hfits | hundefined
  · rcases Nat.lt_or_ge e.value.natAbs 10000000000 with hshort | hlong
    · obtain ⟨hmember, hoffset⟩ := given_of_short conv hfits hshort
      cases r with
      | member type =>
        rcases h with ⟨status, hstop⟩ | ⟨-, -, hrange⟩
        · rw [hmember] at hstop
          cases hstop
        · exact ⟨hfits, hrange, fun hr => by cases hr⟩
      | offset =>
        rcases h with ⟨status, hstop⟩ | ⟨htakes, -, hrange⟩
        · rw [hoffset] at hstop
          cases hstop
        · have hvalue : (e.value.natAbs : ℤ) = e.value := Except.ok.inj (hoffset.symm.trans htakes)
          exact ⟨hfits, hrange, fun _ => by omega⟩
    · obtain ⟨fault, hline, hmember, hoffset⟩ := given_of_long conv hfits hlong
      exact absurd h (stopsOrTakes_of_error r hline hmember hoffset)
  · have htext : natural_expression e = .error .undefined := by
      rw [natural_expression, hundefined]
      rfl
    have hline : ∀ status, Fault.undefined ≠ .stops (.exits status) := by
      intro status hne
      cases hne
    refine absurd h (stopsOrTakes_of_error r hline (fun type => ?_) ?_)
    · rw [assignNatural, htext]
      rfl
    · rw [offset_statement, htext]
      rfl

/-- The condition is enough for every expression, and is needed where every token is a number of a `long`. -/
theorem naturalExpression_exact (conv : Conversions) (e : Expression) (r : Receiver) :
    (r.Fits e → r.StopsOrTakes conv e) ∧ (e.NumbersInLong → (r.StopsOrTakes conv e ↔ r.Fits e)) :=
  ⟨stopsOrTakes_of_fits conv, fun hnumbers => ⟨fits_of_stopsOrTakes conv hnumbers, stopsOrTakes_of_fits conv⟩⟩

def zeroConversions : Conversions := ⟨fun _ => [], fun _ => 0, fun _ => 0⟩

/-- `(2 - 0xA) * 16`. -/
def minusEightSixteens : Expression :=
  .binary .times
    (.braced (.binary .minus (.natural (.decimal ['2'] (List.cons_ne_nil _ _) (List.all_eq_true.mp rfl)))
      (.natural (.hex ['A'] (List.cons_ne_nil _ _) (List.all_eq_true.mp rfl)))))
    (.natural (.decimal ['1', '6'] (List.cons_ne_nil _ _) (List.all_eq_true.mp rfl)))

theorem naturalExpression_exact_minus :
    (Receiver.member .L_BYTE).StopsOrTakes zeroConversions minusEightSixteens ∧
      ¬ Receiver.offset.StopsOrTakes zeroConversions minusEightSixteens := by
  have hfits : minusEightSixteens.Fits :=
    ⟨⟨⟨by decide, by decide⟩, ⟨by decide, by decide⟩, nofun, by decide, by decide⟩, ⟨by decide, by decide⟩, nofun,
      by decide, by decide⟩
  have hnumbers : minusEightSixteens.NumbersInLong := ⟨⟨hfits.1.1.2, hfits.1.2.1.2⟩, hfits.2.1.2⟩
  refine ⟨(naturalExpression_exact zeroConversions _ _).1 ⟨hfits, ⟨by decide, by decide⟩, nofun⟩, fun h => ?_⟩
  have hoffset := ((naturalExpression_exact zeroConversions _ _).2 hnumbers).mp h
  exact absurd (hoffset.natural rfl) (by decide)

/-- `300`. -/
def threeHundred : Expression := .natural (.decimal ['3', '0', '0'] (List.cons_ne_nil _ _) (List.all_eq_true.mp rfl))

/-- `BYTE b = 300;` streams out the byte 44. -/
theorem threeHundred_byte : ¬ (Receiver.member .L_BYTE).StopsOrTakes zeroConversions threeHundred ∧
    assignNatural zeroConversions .L_BYTE threeHundred = .ok [.StreamIn [44]] := by
  have hfits : threeHundred.Fits := ⟨by decide, by decide⟩
  have hrun : assignNatural zeroConversions .L_BYTE threeHundred = .ok [.StreamIn [44]] :=
    (given_of_short zeroConversions hfits (by decide)).1 .L_BYTE
  refine ⟨?_, hrun⟩
  rintro (⟨status, hstop⟩ | ⟨-, -, hrange⟩)
  · rw [hrun] at hstop
    cases hstop
  · have hle : threeHundred.value ≤ 255 := hrange.2
    exact absurd hle (by decide)

end GnuPoc.Rcomp
