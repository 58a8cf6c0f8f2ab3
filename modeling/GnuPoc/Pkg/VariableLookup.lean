import GnuPoc.Pkg.ConditionTree

/-!
# GnuPoc.Pkg.VariableLookup — the loop over the variables (`parsepkg.cpp`)

The tables of names are searched from the first entry on, as far as a bound that is computed from the sizes of the
structures.  For `KVariableLookupTable` it is computed from the size of another structure: a name that is not found is
compared with what lies behind the table.
-/

namespace GnuPoc.Pkg

/-! ### Sizes -/

def MAXOPTLEN : ℕ := 20

def MAXTOKENLEN : ℕ := 30

/-- A `WCHAR` has four bytes and a `DWORD` eight. -/
def sizeofEntry (length : ℕ) : ℕ := 4 * length + 8

def sizeofSParseOpt : ℕ := sizeofEntry MAXOPTLEN

def sizeofSParseToken : ℕ := sizeofEntry MAXTOKENLEN

def NUMVAROPTIONS : ℕ := KVariableLookupTable.length * sizeofSParseToken / sizeofSParseOpt

/-! ### The loop -/

/-- `for(wLoop = 0; wLoop < bound; wLoop++)`, with the number of rounds that are left; `none` at its end. -/
def lookupLoop {α : Type} (table : List (String × α)) (s : WStr) : ℕ → ℕ → PRes (Option α)
  | 0, _ => .ok none
  | rounds + 1, wLoop =>
    match table[wLoop]? with
    | none => .error .outOfBounds
    | some entry => if wcsicmp s (wstr entry.1) then .ok (some entry.2) else lookupLoop table s rounds (wLoop + 1)

/-- The lookup of an `ALPHA_TOKEN`: an option, or a variable with its number as a `WORD`. -/
def variableLookup (s : WStr) : PRes (NumberPrim × UInt64) :=
  if wcsicmp (s.take 6) (wstr "option") then
    match wcstol (s.drop 6) with
    | some optionNum => .ok (.EInstCondPrimTypeOption, optionNum)
    | none => throws .ErrUnknownVariable
  else do
    let found ← lookupLoop KVariableLookupTable s NUMVAROPTIONS 0
    match found with
    | some dwOpt => .ok (.EInstCondPrimTypeVariable, (dwOpt &&& 0xFFFF).toUInt64)
    | none => throws .ErrUnknownVariable

section
variable {α : Type} {table : List (String × α)} {s : WStr}

theorem findOption_cons (entry : String × α) : findOption (entry :: table) s =
    if wcsicmp s (wstr entry.1) then some entry.2 else findOption table s := by
  rw [findOption, List.find?_cons]
  cases wcsicmp s (wstr entry.1) with
  | true => rfl
  | false => rfl

theorem lookupLoop_eq : ∀ rounds wLoop, lookupLoop table s rounds wLoop =
    match findOption ((table.drop wLoop).take rounds) s with
    | some v => .ok (some v)
    | none => if wLoop + rounds ≤ table.length ∨ rounds = 0 then .ok none else .error .outOfBounds
  | 0, wLoop => by
    rw [lookupLoop, List.take_zero]
    exact (if_pos (.inr rfl)).symm
  | rounds + 1, wLoop => by
    rw [lookupLoop]
    by_cases hlt : wLoop < table.length
    · rw [List.getElem?_eq_getElem hlt, List.drop_eq_getElem_cons hlt, List.take_succ_cons, findOption_cons]
      dsimp only
      by_cases hmatch : wcsicmp s (wstr table[wLoop].1) = true
      · rw [if_pos hmatch, if_pos hmatch]
      · rw [if_neg hmatch, if_neg hmatch, lookupLoop_eq rounds (wLoop + 1)]
        have hbound : (wLoop + 1 + rounds ≤ table.length ∨ rounds = 0) ↔
            (wLoop + (rounds + 1) ≤ table.length ∨ rounds + 1 = 0) := by omega
        simp only [hbound]
    · rw [List.getElem?_eq_none (not_lt.mp hlt), List.drop_eq_nil_of_le (not_lt.mp hlt), List.take_nil]
      exact (if_neg (by omega)).symm

theorem lookupLoop_beyond {bound : ℕ} (h : table.length < bound) : lookupLoop table s bound 0 =
    match findOption table s with
    | some v => .ok (some v)
    | none => .error .outOfBounds := by
  rw [lookupLoop_eq, List.drop_zero, List.take_of_length_le h.le]
  cases findOption table s with
  | none => exact if_neg (by omega)
  | some v => rfl

theorem findOption_eq_none : findOption table s = none ↔ ∀ entry ∈ table, wcsicmp s (wstr entry.1) = false := by
  rw [findOption, Option.map_eq_none_iff, List.find?_eq_none]
  simp only [Bool.not_eq_true]

end

theorem length_lt_NUMVAROPTIONS : KVariableLookupTable.length < NUMVAROPTIONS := by decide

theorem lookupVariable_eq (s : WStr) : lookupVariable s = (do
    let (prim, dwNumber) ← variableLookup s
    .ok (prim, dwNumber.toUInt32)) := by
  unfold lookupVariable variableLookup
  by_cases hoption : wcsicmp (s.take 6) (wstr "option") = true
  · rw [if_pos hoption, if_pos hoption]
    cases wcstol (s.drop 6) with
    | none => rfl
    | some optionNum => rfl
  · rw [if_neg hoption, if_neg hoption, lookupLoop_beyond length_lt_NUMVAROPTIONS]
    cases findOption KVariableLookupTable s with
    | none => rfl
    | some dwOpt =>
      show Except.ok _ = Except.ok (_, (dwOpt &&& 0xFFFF).toUInt64.toUInt32)
      rw [UInt32.toUInt32_toUInt64]

/-! ### What is to be found -/

/-- The name is that of the entry, in small or capital letters. -/
def IsVariable (s : WStr) (entry : String × UInt32) : Prop :=
  entry ∈ KVariableLookupTable ∧ wcsicmp s (wstr entry.1) = true

/-- The name is `option` with a number behind it. -/
def IsOption (s : WStr) (n : ℕ) : Prop :=
  ∃ (o : WStr) (digits : List Char), s = o ++ digits.map Char.val ∧ wcsicmp o (wstr "option") = true ∧
    OptionNumber n digits ∧ n < 2 ^ 63

/-- The number of the entry, or of the option, or the error. -/
structure Finds (s : WStr) (result : PRes (NumberPrim × UInt64)) : Prop where
  ofVariable : ∀ entry, IsVariable s entry → result = .ok (.EInstCondPrimTypeVariable, entry.2.toUInt64)
  ofOption : ∀ n, IsOption s n → result = .ok (.EInstCondPrimTypeOption, UInt64.ofNat n)
  ofUnknown : (∀ entry, ¬ IsVariable s entry) → (∀ n, ¬ IsOption s n) → result = throws .ErrUnknownVariable

theorem entry_number : ∀ entry ∈ KVariableLookupTable, entry.2 &&& 0xFFFF = entry.2 := by decide +kernel

theorem not_option_of_variable {s : WStr} {entry : String × UInt32} (h : IsVariable s entry) :
    wcsicmp (s.take 6) (wstr "option") = false := by
  obtain ⟨i, hi, rfl⟩ := List.getElem_of_mem h.1
  have hmap := map_towlower_of_wcsicmp h.2
  rw [← (variable_row ⟨i, hi⟩).1]
  show wcsicmp (s.take 6) (wstr "option") = wcsicmp ((wstr KVariableLookupTable[i].1).take 6) (wstr "option")
  simp only [wcsicmp, List.map_take, hmap]

theorem findOption_of_variable {s : WStr} {entry : String × UInt32} (h : IsVariable s entry) :
    findOption KVariableLookupTable s = some entry.2 := by
  obtain ⟨i, hi, rfl⟩ := List.getElem_of_mem h.1
  have hmap := map_towlower_of_wcsicmp h.2
  have hrow : findOption KVariableLookupTable (wstr KVariableLookupTable[i].1) = some KVariableLookupTable[i].2 :=
    (variable_row ⟨i, hi⟩).2
  rw [← hrow]
  simp only [findOption, wcsicmp, hmap]

theorem variableLookup_variable {s : WStr} {entry : String × UInt32} (h : IsVariable s entry) :
    variableLookup s = .ok (.EInstCondPrimTypeVariable, entry.2.toUInt64) := by
  rw [variableLookup, not_option_of_variable h, if_neg Bool.false_ne_true, lookupLoop_beyond length_lt_NUMVAROPTIONS,
    findOption_of_variable h]
  show Except.ok (_, (entry.2 &&& 0xFFFF).toUInt64) = _
  rw [entry_number entry h.1]

/-- What stands behind `option` in an option's name. -/
theorem isOption_iff {s : WStr} {n : ℕ} : IsOption s n ↔ wcsicmp (s.take 6) (wstr "option") = true ∧
    (∃ digits, s.drop 6 = digits.map Char.val ∧ OptionNumber n digits) ∧ n < 2 ^ 63 := by
  constructor
  · rintro ⟨o, digits, rfl, ho, hdigits, hn⟩
    have hlen : o.length = 6 := by
      have := congrArg List.length (map_towlower_of_wcsicmp ho)
      rwa [List.length_map, List.length_map] at this
    rw [List.take_left' hlen, List.drop_left' hlen]
    exact ⟨ho, ⟨digits, rfl, hdigits⟩, hn⟩
  · rintro ⟨ho, ⟨digits, hdrop, hdigits⟩, hn⟩
    refine ⟨s.take 6, digits, ?_, ho, hdigits, hn⟩
    rw [← hdrop, List.take_append_drop]

theorem variableLookup_option {s : WStr} {n : ℕ} (h : IsOption s n) :
    variableLookup s = .ok (.EInstCondPrimTypeOption, UInt64.ofNat n) := by
  obtain ⟨ho, ⟨digits, hdrop, hdigits⟩, hn⟩ := isOption_iff.mp h
  rw [variableLookup, if_pos ho, hdrop, wcstol_optionNumber hdigits hn]

def isDigit (c : UInt32) : Bool := 48 ≤ c && c ≤ 57

theorem exists_digits {rest : WStr} (h : rest.all isDigit = true) :
    ∃ digits : List Char, rest = digits.map Char.val ∧ ∀ c ∈ digits, c.isDigit = true := by
  induction rest with
  | nil => exact ⟨[], rfl, fun c hc => absurd hc List.not_mem_nil⟩
  | cons c rest ih =>
    rw [List.all_cons, Bool.and_eq_true] at h
    obtain ⟨digits, rfl, hdigits⟩ := ih h.2
    have hc := h.1
    rw [isDigit, Bool.and_eq_true, decide_eq_true_eq, decide_eq_true_eq, UInt32.le_iff_toNat_le,
      UInt32.le_iff_toNat_le] at hc
    have hvalid : c.toNat.isValidChar := .inl (Nat.lt_of_le_of_lt hc.2 (by decide))
    refine ⟨⟨c, hvalid⟩ :: digits, rfl, List.forall_mem_cons.mpr ⟨?_, hdigits⟩⟩
    rw [Char.isDigit, Bool.and_eq_true, decide_eq_true_eq, decide_eq_true_eq]
    exact ⟨UInt32.le_iff_toNat_le.mpr hc.1, UInt32.le_iff_toNat_le.mpr hc.2⟩

/-- `wcstol` on digits alone gives their number. -/
theorem isOption_of_digits {s : WStr} {n : UInt64} (ho : wcsicmp (s.take 6) (wstr "option") = true)
    (hdigits : (s.drop 6).all isDigit = true) (hn : wcstol (s.drop 6) = some n) : IsOption s n.toNat := by
  obtain ⟨digits, hdrop, hchars⟩ := exists_digits hdigits
  have htake : (s.drop 6).takeWhile (fun c => 48 ≤ c && c ≤ 57) = s.drop 6 :=
    List.takeWhile_eq_self_iff.mpr fun c hc => List.all_eq_true.mp hdigits c hc
  have hvalue : (s.drop 6).foldl (fun n c => 10 * n + (c.toNat - 48)) 0 = Nat.ofDigitChars 10 digits 0 := by
    rw [hdrop, List.foldl_map, Nat.ofDigitChars_eq_foldl]
    rfl
  rw [wcstol, htake, hvalue] at hn
  by_cases hnone : s.drop 6 = [] ∨ 2 ^ 63 ≤ Nat.ofDigitChars 10 digits 0
  · rw [if_pos hnone] at hn
    cases hn
  · rw [if_neg hnone] at hn
    rw [not_or, not_le] at hnone
    have hnat : n.toNat = Nat.ofDigitChars 10 digits 0 := by
      rw [← Option.some_inj.mp hn]
      exact UInt64.toNat_ofNat_of_lt' (Nat.lt_trans hnone.2 (by decide))
    refine isOption_iff.mpr ⟨ho, ⟨digits, hdrop, ?_, hchars, hnat.symm⟩, by omega⟩
    rintro rfl
    exact hnone.1 hdrop

/-- **A name is looked up as it should** exactly when it is a variable's, or an option's with nothing but the number
behind it, or with no number that is read at all; any other name is not in the table, where the search leaves it. -/
theorem finds_variableLookup_iff (s : WStr) : Finds s (variableLookup s) ↔ (∃ entry, IsVariable s entry) ∨
    (wcsicmp (s.take 6) (wstr "option") = true ∧ (wcstol (s.drop 6) = none ∨ (s.drop 6).all isDigit = true)) := by
  constructor
  · intro h
    by_cases hvariable : ∃ entry, IsVariable s entry
    · exact .inl hvariable
    · rw [not_exists] at hvariable
      refine .inr ?_
      by_cases ho : wcsicmp (s.take 6) (wstr "option") = true
      · refine ⟨ho, or_iff_not_imp_right.mpr fun hdigits => ?_⟩
        have hnone : ∀ n, ¬ IsOption s n := by
          intro n hoption
          obtain ⟨-, ⟨digits, hdrop, hnumber⟩, -⟩ := isOption_iff.mp hoption
          refine hdigits ?_
          rw [hdrop, List.all_map]
          exact List.all_eq_true.mpr fun c hc => hnumber.2.1 c hc
        have hthrows := h.ofUnknown hvariable hnone
        rw [variableLookup, if_pos ho] at hthrows
        cases hn : wcstol (s.drop 6) with
        | none => rfl
        | some n =>
          rw [hn] at hthrows
          cases hthrows
      · have hthrows := h.ofUnknown hvariable fun n hoption => ho (isOption_iff.mp hoption).1
        have hfind : findOption KVariableLookupTable s = none :=
          findOption_eq_none.mpr fun entry hmem => Bool.eq_false_iff.mpr fun hname => hvariable entry ⟨hmem, hname⟩
        rw [variableLookup, if_neg ho, lookupLoop_beyond length_lt_NUMVAROPTIONS, hfind] at hthrows
        cases hthrows
  · rintro (⟨entry, hentry⟩ | ⟨ho, hrest⟩)
    · refine ⟨fun entry' => variableLookup_variable, fun n hoption => variableLookup_option hoption, ?_⟩
      exact fun hnone => absurd hentry (hnone entry)
    · refine ⟨fun entry => variableLookup_variable, fun n => variableLookup_option, fun _ hnone => ?_⟩
      rw [variableLookup, if_pos ho]
      cases hn : wcstol (s.drop 6) with
      | none => rfl
      | some n =>
        rcases hrest with hrest | hdigits
        · cases hrest.symm.trans hn
        · exact absurd (isOption_of_digits ho hdigits hn) (hnone n.toNat)

/-- An identifier that is no variable is searched for behind the table. -/
theorem foo_not_found : variableLookup (wstr "foo") = .error .outOfBounds ∧
    ¬ Finds (wstr "foo") (variableLookup (wstr "foo")) := by
  have hlookup : variableLookup (wstr "foo") = .error .outOfBounds := by decide +kernel
  refine ⟨hlookup, fun h => ?_⟩
  have hnone : ∀ entry, ¬ IsVariable (wstr "foo") entry := by
    rintro entry ⟨hmem, hname⟩
    have hall : ∀ entry ∈ KVariableLookupTable, wcsicmp (wstr "foo") (wstr entry.1) = false := by decide +kernel
    exact Bool.false_ne_true ((hall entry hmem).symm.trans hname)
  have hthrows := h.ofUnknown hnone fun n hoption => by
    have ho := (isOption_iff.mp hoption).1
    revert ho
    decide +kernel
  rw [hlookup] at hthrows
  cases hthrows

end GnuPoc.Pkg
