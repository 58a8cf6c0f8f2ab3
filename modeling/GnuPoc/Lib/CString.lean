import GnuPoc.Lib.LittleEndian

/-!
# GnuPoc.Lib.CString — NUL-terminated strings

A `CString` is the bytes in front of the terminator, which by construction hold no NUL.  `strcmp` returns
the difference of the first bytes that differ, as unsigned characters; its sign is a strict total order.
`readCString` reads a string out of a larger byte array.
-/

namespace GnuPoc.Lib

structure CString where
  chars : Bytes
  noNul : 0 ∉ chars
  deriving DecidableEq

theorem CString.ext_chars {s t : CString} (h : s.chars = t.chars) : s = t := by
  cases s
  cases t
  simp only [CString.mk.injEq]
  exact h

/-- The comparison loop; the end of a string compares as NUL. -/
def strcmpChars : Bytes → Bytes → ℤ
  | [], [] => 0
  | [], b :: _ => 0 - b.toNat
  | a :: _, [] => a.toNat
  | a :: as, b :: bs => if a = b then strcmpChars as bs else (a.toNat : ℤ) - b.toNat

def strcmp (s t : CString) : ℤ := strcmpChars s.chars t.chars

theorem strcmpChars_self (as : Bytes) : strcmpChars as as = 0 := by
  induction as with
  | nil => rfl
  | cons a as ih => simp [strcmpChars, ih]

theorem strcmpChars_neg (as bs : Bytes) : strcmpChars bs as = -strcmpChars as bs := by
  induction as generalizing bs with
  | nil => cases bs <;> simp [strcmpChars]
  | cons a as ih =>
    cases bs with
    | nil => simp [strcmpChars]
    | cons b bs =>
      simp only [strcmpChars]
      by_cases hab : a = b
      · rw [if_pos hab, if_pos hab.symm, ih]
      · rw [if_neg hab, if_neg (Ne.symm hab)]
        omega

theorem toNat_pos_of_noNul {b : UInt8} {bs : Bytes} (h : 0 ∉ b :: bs) : 0 < b.toNat := by
  have hb : b ≠ 0 := fun h0 => h (by simp [h0])
  have : b.toNat ≠ 0 := fun h0 => hb (UInt8.toNat.inj h0)
  omega

theorem strcmpChars_eq_zero {as bs : Bytes} (ha : 0 ∉ as) (hb : 0 ∉ bs) :
    strcmpChars as bs = 0 → as = bs := by
  induction as generalizing bs with
  | nil =>
    cases bs with
    | nil => intro; rfl
    | cons b bs =>
      have := toNat_pos_of_noNul hb
      intro h
      simp only [strcmpChars] at h
      omega
  | cons a as ih =>
    have := toNat_pos_of_noNul ha
    cases bs with
    | nil =>
      intro h
      simp only [strcmpChars] at h
      omega
    | cons b bs =>
      intro h
      simp only [strcmpChars] at h
      split at h
      · next hab =>
        rw [hab, ih (fun h0 => ha (List.mem_cons_of_mem _ h0)) (fun h0 => hb (List.mem_cons_of_mem _ h0)) h]
      · next hab =>
        exact absurd (UInt8.toNat.inj (by omega)) hab

theorem strcmpChars_trans {as bs cs : Bytes} (hb : 0 ∉ bs) (hab : strcmpChars as bs < 0)
    (hbc : strcmpChars bs cs < 0) : strcmpChars as cs < 0 := by
  induction as generalizing bs cs with
  | nil =>
    cases bs with
    | nil => exact hbc
    | cons b bs =>
      have := toNat_pos_of_noNul hb
      cases cs with
      | nil =>
        simp only [strcmpChars] at hbc
        omega
      | cons c cs =>
        simp only [strcmpChars] at hbc ⊢
        split at hbc
        · next hbc' => rw [← hbc']; omega
        · omega
  | cons a as ih =>
    cases bs with
    | nil =>
      simp only [strcmpChars] at hab
      omega
    | cons b bs =>
      cases cs with
      | nil =>
        simp only [strcmpChars] at hbc
        omega
      | cons c cs =>
        simp only [strcmpChars] at hab hbc ⊢
        by_cases h1 : a = b
        · by_cases h2 : b = c
          · rw [if_pos h1] at hab
            rw [if_pos h2] at hbc
            rw [if_pos (h1.trans h2)]
            exact ih (fun h0 => hb (List.mem_cons_of_mem _ h0)) hab hbc
          · rw [if_neg h2] at hbc
            rw [h1, if_neg h2]
            exact hbc
        · rw [if_neg h1] at hab
          by_cases h2 : b = c
          · rw [← h2, if_neg h1]
            exact hab
          · rw [if_neg h2] at hbc
            have h3 : a ≠ c := by
              rintro rfl
              omega
            rw [if_neg h3]
            omega

/-! ### The order of `strcmp` -/

instance : LT CString := ⟨fun s t => strcmp s t < 0⟩

theorem CString.lt_def {s t : CString} : s < t ↔ strcmp s t < 0 := Iff.rfl

instance (s t : CString) : Decidable (s < t) := inferInstanceAs (Decidable (strcmp s t < 0))

theorem strcmp_eq_zero {s t : CString} : strcmp s t = 0 ↔ s = t := by
  constructor
  · exact fun h => CString.ext_chars (strcmpChars_eq_zero s.noNul t.noNul h)
  · rintro rfl
    exact strcmpChars_self _

theorem CString.lt_irrefl (s : CString) : ¬ s < s := by
  rw [lt_def, strcmp_eq_zero.mpr rfl]
  omega

theorem CString.lt_trans {s t u : CString} (h1 : s < t) (h2 : t < u) : s < u :=
  strcmpChars_trans t.noNul h1 h2

theorem CString.lt_or_gt_of_ne {s t : CString} (h : s ≠ t) : s < t ∨ t < s := by
  have hneg : strcmp t s = -strcmp s t := strcmpChars_neg _ _
  have hne : strcmp s t ≠ 0 := fun h0 => h (strcmp_eq_zero.mp h0)
  rw [lt_def, lt_def, hneg]
  omega

instance : Std.Irrefl (α := CString) (· < ·) := ⟨CString.lt_irrefl⟩

instance : Std.Antisymm (α := CString) (· < ·) :=
  ⟨fun _ _ h1 h2 => absurd (CString.lt_trans h1 h2) (CString.lt_irrefl _)⟩

/-! ### Strings inside byte arrays -/

/-- The string that starts at the front of a byte array. -/
def readCString (b : Bytes) : Bytes := b.takeWhile (· ≠ 0)

theorem readCString_append (s : CString) (rest : Bytes) : readCString (s.chars ++ 0 :: rest) = s.chars := by
  have hall : ∀ c ∈ s.chars, decide (c ≠ 0) = true := by
    intro c hc
    have : c ≠ 0 := fun h0 => s.noNul (h0 ▸ hc)
    simp [this]
  rw [readCString, List.takeWhile_append_of_pos hall]
  simp

end GnuPoc.Lib
