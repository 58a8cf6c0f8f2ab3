import GnuPoc.Lib.CString
import Mathlib.Data.List.TakeWhile

/-!
# GnuPoc.Lib.Stdio — text in and out: `fgets`, `%d`, `strtoul`, `strtol`, `strstr`

The functions of the C library that read and print text, on byte lists in the C locale.  The round trips
proved here are those of `%d` and of a line through `fgets`.
-/

namespace GnuPoc.Lib

/-- The bytes of a string literal. -/
def chars (s : String) : Bytes := s.toList.map fun c => UInt8.ofNat c.toNat

def isspace (c : UInt8) : Bool := c = 32 ∨ (9 ≤ c ∧ c ≤ 13)

def isdigit (c : UInt8) : Bool := 48 ≤ c ∧ c ≤ 57

def tolower (c : UInt8) : UInt8 := if 65 ≤ c ∧ c ≤ 90 then c + 32 else c

def skipSpaces (s : Bytes) : Bytes := s.dropWhile isspace

/-- The string up to its terminator. -/
def CString.ofBytes (b : Bytes) : CString :=
  ⟨readCString b, fun h => by simpa using List.mem_takeWhile_imp h⟩

theorem CString.ofBytes_chars (s : CString) : CString.ofBytes s.chars = s := by
  refine CString.ext_chars (List.takeWhile_eq_self_iff.mpr fun c hc => ?_)
  have hne : c ≠ 0 := by
    rintro rfl
    exact s.noNul hc
  simpa using hne

/-! ### `%d` -/

/-- A natural number in decimal. -/
def printNat (n : ℕ) : Bytes := (Nat.toDigits 10 n).map fun c => UInt8.ofNat c.toNat

/-- `%d` of an `int`. -/
def printInt (n : Int32) : Bytes := if n.toInt < 0 then 45 :: printNat n.toInt.natAbs else printNat n.toInt.natAbs

def digitsValue (ds : Bytes) : ℕ := ds.foldl (fun n d => n * 10 + (d.toNat - 48)) 0

/-- The value of `%d`, which `long` clamps and `int` cuts off. -/
def toInt (n : ℤ) : Int32 := Int32.ofInt (max (-2 ^ 63) (min n (2 ^ 63 - 1)))

/-- `%d` in a `scanf` format, with what it leaves unread. -/
def scanInt (s : Bytes) : Option (Int32 × Bytes) :=
  let s := skipSpaces s
  let negative := s.head? = some 45
  let s := if s.head? = some 45 ∨ s.head? = some 43 then s.tail else s
  let digits := s.takeWhile isdigit
  if digits = [] then none
  else some (toInt (if negative then -digitsValue digits else digitsValue digits), s.dropWhile isdigit)

theorem digit_eq {d : ℕ} (h : d < 10) : UInt8.ofNat (Nat.digitChar d).toNat = UInt8.ofNat (48 + d) := by
  have hall : ∀ d < 10, UInt8.ofNat (Nat.digitChar d).toNat = UInt8.ofNat (48 + d) := by decide
  exact hall d h

theorem printNat_eq (n : ℕ) :
    printNat n = (if n < 10 then [] else printNat (n / 10)) ++ [UInt8.ofNat (48 + n % 10)] := by
  unfold printNat
  rw [Nat.toDigits_eq_if (by omega)]
  split
  · next h => simp [digit_eq h, Nat.mod_eq_of_lt h]
  · simp [digit_eq (Nat.mod_lt n (by omega))]

theorem toNat_digit {d : ℕ} (h : d < 10) : (UInt8.ofNat (48 + d)).toNat = 48 + d := by
  rw [UInt8.toNat_ofNat']
  omega

theorem digitsValue_printNat (n : ℕ) : digitsValue (printNat n) = n := by
  induction n using Nat.strongRecOn with
  | _ n ih =>
    have hd : n % 10 < 10 := Nat.mod_lt n (by omega)
    rw [printNat_eq, digitsValue, List.foldl_append, List.foldl_cons, List.foldl_nil, toNat_digit hd]
    by_cases h : n < 10
    · rw [if_pos h]
      show 0 * 10 + _ = n
      omega
    · have hq := ih (n / 10) (by omega)
      rw [digitsValue] at hq
      rw [if_neg h, hq]
      omega

theorem isdigit_printNat (n : ℕ) : ∀ c ∈ printNat n, isdigit c = true := by
  induction n using Nat.strongRecOn with
  | _ n ih =>
    intro c hc
    have hd : n % 10 < 10 := Nat.mod_lt n (by omega)
    have hlast : isdigit (UInt8.ofNat (48 + n % 10)) = true := by
      have h := toNat_digit hd
      simp only [isdigit, UInt8.le_iff_toNat_le, h, decide_eq_true_eq]
      show 48 ≤ 48 + n % 10 ∧ 48 + n % 10 ≤ 57
      omega
    rw [printNat_eq] at hc
    rcases List.mem_append.mp hc with hc | hc
    · by_cases h : n < 10
      · rw [if_pos h] at hc
        exact absurd hc List.not_mem_nil
      · rw [if_neg h] at hc
        exact ih (n / 10) (by omega) c hc
    · rw [List.mem_singleton.mp hc]
      exact hlast

theorem printNat_ne_nil (n : ℕ) : printNat n ≠ [] := by
  rw [printNat_eq]
  simp

theorem takeWhile_digits (n : ℕ) {rest : Bytes} (h : ∀ c, rest.head? = some c → isdigit c = false) :
    (printNat n ++ rest).takeWhile isdigit = printNat n ∧ (printNat n ++ rest).dropWhile isdigit = rest := by
  rw [List.takeWhile_append_of_pos (isdigit_printNat n), List.dropWhile_append_of_pos (isdigit_printNat n)]
  cases rest with
  | nil => simp
  | cons c rest => simp [h c rfl]

theorem head?_printNat (n : ℕ) (rest : Bytes) : ∃ c, (printNat n ++ rest).head? = some c ∧ isdigit c = true := by
  obtain ⟨c, ds, hcs⟩ := List.exists_cons_of_ne_nil (printNat_ne_nil n)
  refine ⟨c, by rw [hcs]; rfl, isdigit_printNat n c ?_⟩
  rw [hcs]
  exact List.mem_cons_self

theorem skipSpaces_cons {c : UInt8} {s : Bytes} (h : isspace c = false) : skipSpaces (c :: s) = c :: s := by
  simp [skipSpaces, h]

theorem not_isspace_of_isdigit {c : UInt8} (h : isdigit c = true) : isspace c = false ∧ c ≠ 45 ∧ c ≠ 43 := by
  simp only [isdigit, decide_eq_true_eq, UInt8.le_iff_toNat_le] at h
  have h1 : (48 : UInt8).toNat = 48 := rfl
  have hn : ∀ k : UInt8, k.toNat < 48 → c ≠ k := by
    rintro k hk rfl
    omega
  refine ⟨?_, hn 45 (by decide), hn 43 (by decide)⟩
  simp only [isspace, decide_eq_false_iff_not, not_or, not_and, UInt8.le_iff_toNat_le]
  have h13 : (13 : UInt8).toNat = 13 := rfl
  exact ⟨hn 32 (by decide), by omega⟩

theorem toInt_of_int32 (n : Int32) : toInt n.toInt = n := by
  have h1 := n.le_toInt
  have h2 := n.toInt_lt
  have hmin : min n.toInt (2 ^ 63 - 1) = n.toInt := by omega
  have hmax : max (-2 ^ 63) n.toInt = n.toInt := by omega
  rw [toInt, hmin, hmax, Int32.ofInt_toInt]

/-- **`%d`.**  What is printed is what is read, behind any spaces and in front of anything but a digit. -/
theorem scanInt_printInt (n : Int32) {rest : Bytes} (h : ∀ c, rest.head? = some c → isdigit c = false) :
    scanInt (printInt n ++ rest) = some (n, rest) := by
  obtain ⟨htake, hdrop⟩ := takeWhile_digits n.toInt.natAbs h
  unfold printInt
  by_cases hneg : n.toInt < 0
  · have hval : -(n.toInt.natAbs : ℤ) = n.toInt := by omega
    rw [if_pos hneg, List.cons_append, scanInt]
    simp only [skipSpaces_cons (c := 45) (by decide), List.head?_cons, true_or, if_true, List.tail_cons, htake, hdrop,
      printNat_ne_nil, if_false, digitsValue_printNat, hval, toInt_of_int32]
  · obtain ⟨c, hc, hdig⟩ := head?_printNat n.toInt.natAbs rest
    obtain ⟨hsp, hm, hp⟩ := not_isspace_of_isdigit hdig
    have hval : (n.toInt.natAbs : ℤ) = n.toInt := by omega
    have hskip : skipSpaces (printNat n.toInt.natAbs ++ rest) = printNat n.toInt.natAbs ++ rest := by
      obtain ⟨s, hs⟩ : ∃ s, printNat n.toInt.natAbs ++ rest = c :: s := by
        cases hl : printNat n.toInt.natAbs ++ rest with
        | nil => rw [hl] at hc; cases hc
        | cons c' s => rw [hl] at hc; exact ⟨s, by rw [← Option.some.inj hc]⟩
      rw [hs, skipSpaces_cons hsp]
    rw [if_neg hneg, scanInt]
    simp only [hskip, hc, Option.some.injEq, hm, hp, or_self, if_false, htake, hdrop, printNat_ne_nil,
      digitsValue_printNat, hval, toInt_of_int32]

theorem scanInt_skipSpaces (s : Bytes) : scanInt (skipSpaces s) = scanInt s := by
  have hidem : skipSpaces (skipSpaces s) = skipSpaces s := by
    induction s with
    | nil => rfl
    | cons c s ih =>
      cases hc : isspace c with
      | true =>
        have hskip : skipSpaces (c :: s) = skipSpaces s := List.dropWhile_cons_of_pos hc
        rw [hskip, ih]
      | false => rw [skipSpaces_cons hc, skipSpaces_cons hc]
  rw [scanInt, hidem, scanInt]

theorem scanInt_space (s : Bytes) : scanInt (32 :: s) = scanInt s := rfl

theorem mem_printInt {n : Int32} {c : UInt8} (h : c ∈ printInt n) : c = 45 ∨ isdigit c = true := by
  unfold printInt at h
  split at h
  · exact (List.mem_cons.mp h).imp_right (isdigit_printNat _ c)
  · exact .inr (isdigit_printNat _ c h)

/-! ### `strtoul`, `%d.%d` and comparison without case -/

def toupper (c : UInt8) : UInt8 := if 97 ≤ c ∧ c ≤ 122 then c - 32 else c

/-- The value of a digit or letter in a number of any base; `36` is no digit. -/
def digitOf (c : UInt8) : ℕ :=
  if isdigit c then c.toNat - 48
  else if 65 ≤ toupper c ∧ toupper c ≤ 90 then (toupper c).toNat - 55
  else 36

/-- The digits of a number in front of a string, as a value. -/
def valueOf (base : ℕ) (s : Bytes) : ℕ :=
  (s.takeWhile fun c => decide (digitOf c < base)).foldl (fun n c => n * base + digitOf c) 0

/-- The value behind the sign: `0x` needs a digit, and a `0` in front is octal. -/
def valueOfBase0 : Bytes → ℕ
  | 48 :: x :: d :: s => if toupper x = 88 ∧ digitOf d < 16 then valueOf 16 (d :: s) else valueOf 8 (x :: d :: s)
  | 48 :: s => valueOf 8 s
  | s => valueOf 10 s

/-- `strtoul(s, NULL, 0)` with an `unsigned long` of 64 bits, which clamps before it negates. -/
def strtoul (s : Bytes) : ℕ :=
  let s := skipSpaces s
  let digits := if s.head? = some 45 ∨ s.head? = some 43 then s.tail else s
  let v := valueOfBase0 digits
  if 2 ^ 64 ≤ v then 2 ^ 64 - 1
  else if s.head? = some 45 then (2 ^ 64 - v) % 2 ^ 64
  else v

/-- `strtol(s, NULL, 0)` with a `long` of 64 bits, which saturates. -/
def strtol (s : Bytes) : ℤ :=
  let s := skipSpaces s
  let digits := if s.head? = some 45 ∨ s.head? = some 43 then s.tail else s
  let v : ℤ := valueOfBase0 digits
  max (-2 ^ 63) (min (if s.head? = some 45 then -v else v) (2 ^ 63 - 1))

/-- `sscanf(s, "%d.%d", &major, &minor)` over the values that are there before. -/
def scanVersion (s : Bytes) (major minor : Int32) : Int32 × Int32 :=
  match scanInt s with
  | none => (major, minor)
  | some (major, rest) =>
    if rest.head? = some 46 then (major, ((scanInt rest.tail).map Prod.fst).getD minor) else (major, minor)

/-- A `char` is signed. -/
def schar (c : UInt8) : ℤ := c.toInt8.toInt

/-- `strcmp` of strings whose letters are folded; the end of a string compares as NUL. -/
def foldedCmp (fold : UInt8 → UInt8) : Bytes → Bytes → ℤ
  | [], [] => 0
  | [], b :: _ => if 0 < schar (fold b) then -1 else 1
  | a :: _, [] => if schar (fold a) < 0 then -1 else 1
  | a :: as, b :: bs =>
    if schar (fold a) < schar (fold b) then -1
    else if schar (fold b) < schar (fold a) then 1
    else foldedCmp fold as bs

/-- `stricmp`, in capitals. -/
def stricmp : Bytes → Bytes → ℤ := foldedCmp toupper

theorem schar_injective {a b : UInt8} (h : schar a = schar b) : a = b :=
  congrArg Int8.toUInt8 (Int8.toInt_inj.mp h)

theorem foldedCmp_eq_zero {fold : UInt8 → UInt8} {a b : Bytes} : foldedCmp fold a b = 0 ↔ a.map fold = b.map fold := by
  induction a generalizing b with
  | nil =>
    cases b with
    | nil => simp [foldedCmp]
    | cons c b => simp only [foldedCmp]; split <;> simp
  | cons c a ih =>
    cases b with
    | nil => simp only [foldedCmp]; split <;> simp
    | cons d b =>
      rw [foldedCmp, List.map_cons, List.map_cons, List.cons.injEq]
      rcases lt_trichotomy (schar (fold c)) (schar (fold d)) with hlt | heq | hgt
      · have hne : fold c ≠ fold d := fun h => by rw [h] at hlt; omega
        simp [hlt, hne]
      · simp [schar_injective heq, ih]
      · have hne : fold c ≠ fold d := fun h => by rw [h] at hgt; omega
        rw [if_neg (by omega), if_pos hgt]
        simp [hne]

/-! ### `fgets` -/

/-- `fgets`: up to `n` bytes, through the first newline. -/
def fgetsLine : ℕ → Bytes → Bytes × Bytes
  | 0, bs => ([], bs)
  | _ + 1, [] => ([], [])
  | n + 1, b :: bs =>
    if b = 10 then ([b], bs)
    else
      let line := fgetsLine n bs
      (b :: line.1, line.2)

/-- The chunks a loop of `fgets` gets; `fuel` bounds their number. -/
def fgetsLoop (n : ℕ) : ℕ → Bytes → List Bytes
  | 0, _ => []
  | _ + 1, [] => []
  | fuel + 1, bs => (fgetsLine n bs).1 :: fgetsLoop n fuel (fgetsLine n bs).2

/-- All chunks of a file, read with a buffer of `size` bytes. -/
def fgetsChunks (size : ℕ) (file : Bytes) : List Bytes := fgetsLoop (size - 1) file.length file

theorem fgetsLine_line {n : ℕ} {line : Bytes} (rest : Bytes) (hn : line.length < n) (hl : 10 ∉ line) :
    fgetsLine n (line ++ 10 :: rest) = (line ++ [10], rest) := by
  induction line generalizing n with
  | nil =>
    obtain ⟨n, rfl⟩ := Nat.exists_eq_add_of_lt hn
    simp [fgetsLine]
  | cons b line ih =>
    obtain ⟨k, rfl⟩ := Nat.exists_eq_add_of_lt hn
    have hb : ¬ b = 10 := fun h => hl (by rw [h]; exact List.mem_cons_self)
    have hk : (b :: line).length + k + 1 = ((b :: line).length + k) + 1 := rfl
    rw [List.cons_append, hk, fgetsLine, if_neg hb, ih (by rw [List.length_cons]; omega)
      fun h => hl (List.mem_cons_of_mem _ h)]
    rfl

theorem fgetsLoop_line {n fuel : ℕ} {line rest : Bytes} (hn : line.length < n) (hl : 10 ∉ line)
    (hf : (line ++ 10 :: rest).length ≤ fuel) :
    ∃ fuel', rest.length ≤ fuel' ∧
      fgetsLoop n fuel (line ++ 10 :: rest) = (line ++ [10]) :: fgetsLoop n fuel' rest := by
  rw [List.length_append, List.length_cons] at hf
  obtain ⟨fuel', rfl⟩ : ∃ fuel', fuel = fuel' + 1 := ⟨fuel - 1, by omega⟩
  refine ⟨fuel', by omega, ?_⟩
  have hline := fgetsLine_line rest hn hl
  obtain ⟨b, bs, hcons⟩ : ∃ b bs, line ++ 10 :: rest = b :: bs := by
    cases line with
    | nil => exact ⟨10, rest, rfl⟩
    | cons b line => exact ⟨b, line ++ 10 :: rest, rfl⟩
  rw [hcons] at hline ⊢
  rw [fgetsLoop, hline]
  exact fun h => List.cons_ne_nil _ _ h

theorem fgetsLoop_lines {n : ℕ} : ∀ {lines : List Bytes} {fuel : ℕ}, (∀ l ∈ lines, l.length < n ∧ 10 ∉ l) →
    (lines.flatMap (· ++ [10])).length ≤ fuel →
    fgetsLoop n fuel (lines.flatMap (· ++ [10])) = lines.map (· ++ [10])
  | [], fuel, _, _ => by cases fuel <;> rfl
  | l :: lines, fuel, h, hf => by
    obtain ⟨hn, hl⟩ := h l List.mem_cons_self
    have heq : (l :: lines).flatMap (· ++ [10]) = l ++ 10 :: lines.flatMap (· ++ [10]) := by simp
    rw [heq] at hf ⊢
    obtain ⟨fuel', hf', hloop⟩ := fgetsLoop_line hn hl hf
    rw [hloop, fgetsLoop_lines (fun l hl => h l (List.mem_cons_of_mem _ hl)) hf', List.map_cons]

theorem fgetsChunks_lines {size : ℕ} {lines : List Bytes} (h : ∀ l ∈ lines, l.length + 1 < size ∧ 10 ∉ l) :
    fgetsChunks size (lines.flatMap (· ++ [10])) = lines.map (· ++ [10]) :=
  fgetsLoop_lines (fun l hl => ⟨by have := (h l hl).1; omega, (h l hl).2⟩) le_rfl

/-! ### Searching -/

/-- `strstr`: the string from the first occurrence on. -/
def strstr (pattern : Bytes) : Bytes → Option Bytes
  | [] => if pattern = [] then some [] else none
  | c :: s => if pattern.isPrefixOf (c :: s) then some (c :: s) else strstr pattern s

theorem strstr_none {c : UInt8} {pattern s : Bytes} (h : c ∉ s) : strstr (c :: pattern) s = none := by
  induction s with
  | nil => rfl
  | cons b s ih =>
    have hb : ¬ c = b := fun h0 => h (by rw [h0]; exact List.mem_cons_self)
    have hpre : (c :: pattern).isPrefixOf (b :: s) = false := by simp [List.isPrefixOf, hb]
    rw [strstr, hpre, if_neg Bool.false_ne_true]
    exact ih fun h0 => h (List.mem_cons_of_mem _ h0)

theorem strstr_append {c : UInt8} {pattern front : Bytes} (rest : Bytes) (h : c ∉ front) :
    strstr (c :: pattern) (front ++ (c :: pattern ++ rest)) = some (c :: pattern ++ rest) := by
  induction front with
  | nil =>
    have hpre : (c :: pattern).isPrefixOf (c :: pattern ++ rest) = true := by
      rw [List.isPrefixOf_iff_prefix]
      exact List.prefix_append _ _
    rw [List.nil_append, List.cons_append, strstr, ← List.cons_append, hpre, if_pos rfl]
  | cons b front ih =>
    have hb : ¬ c = b := fun h0 => h (by rw [h0]; exact List.mem_cons_self)
    have hpre : (c :: pattern).isPrefixOf (b :: (front ++ (c :: pattern ++ rest))) = false := by
      simp [List.isPrefixOf, hb]
    rw [List.cons_append, strstr, hpre, if_neg Bool.false_ne_true]
    exact ih fun h0 => h (List.mem_cons_of_mem _ h0)

/-- The pattern is found behind bytes that do not hold it, if its first character stands nowhere else in it. -/
theorem strstr_first {c : UInt8} {pattern front : Bytes} (rest : Bytes) (hc : c ∉ pattern)
    (h : ¬ (c :: pattern) <:+: front) :
    strstr (c :: pattern) (front ++ (c :: pattern ++ rest)) = some (c :: pattern ++ rest) := by
  induction front with
  | nil =>
    exact strstr_append rest List.not_mem_nil
  | cons b front ih =>
    have hpre : ¬ (c :: pattern) <+: (b :: front) ++ (c :: pattern ++ rest) := by
      intro hprefix
      rcases List.prefix_or_prefix_of_prefix hprefix (List.prefix_append (b :: front) _) with hin | ⟨t, ht⟩
      · exact h hin.isInfix
      · -- the pattern would begin again inside of itself
        obtain ⟨u, hu⟩ := hprefix
        rw [← ht, List.append_assoc, List.append_cancel_left_eq, ht] at hu
        cases t with
        | nil =>
          have hfront : b :: front = c :: pattern := by rw [← ht, List.append_nil]
          exact h (hfront ▸ List.infix_refl _)
        | cons a t =>
          obtain ⟨rfl, -⟩ := List.cons.inj hu
          obtain ⟨-, rfl⟩ := List.cons.inj ht
          exact hc (List.mem_append_right _ List.mem_cons_self)
    have hfalse : (c :: pattern).isPrefixOf (b :: (front ++ (c :: pattern ++ rest))) = false := by
      rw [Bool.eq_false_iff, ne_eq, List.isPrefixOf_iff_prefix]
      exact hpre
    rw [List.cons_append, strstr, hfalse, if_neg Bool.false_ne_true]
    exact ih fun hin => h (hin.trans (List.suffix_cons b front).isInfix)

/-- `strchr` for a character that is not the terminator. -/
def strchr (c : UInt8) (s : Bytes) : Option Bytes := if c ∈ s then some (s.dropWhile (· ≠ c)) else none

end GnuPoc.Lib
