import GnuPoc.Deflate.SubTree
import GnuPoc.Lib.CanonicalCode

/-!
# GnuPoc.Deflate.Lengths — what a valid table holds (`encode.cpp`, `decode.cpp`)

The lengths of a valid table fill the space of codes, or there is only one code.  Both functions count them, one to give
every code its number, the other one to give every leaf its place.
-/

namespace GnuPoc.Deflate

open GnuPoc.Lib

/-! ### Lengths as numbers -/

/-- The lengths of a table. -/
def lengths (aHuffman : Words) : List ℕ := aHuffman.map UInt32.toNat

theorem asTInt_eq (word : UInt32) : asTInt word = if word.toNat < 2 ^ 31 then (word.toNat : ℤ) else (word.toNat : ℤ) - 2 ^ 32 := by
  have h : asTInt word = word.toBitVec.toInt := rfl
  rw [h, BitVec.toInt_eq_toNat_cond]
  have hnat : word.toBitVec.toNat = word.toNat := rfl
  rw [hnat]
  split
  · rw [if_pos (by omega)]
  · rw [if_neg (by omega)]
    rfl

theorem asTInt_of_lt {word : UInt32} (h : word.toNat < 2 ^ 31) : asTInt word = word.toNat := by
  rw [asTInt_eq, if_pos h]

theorem asTInt_pred {word : UInt32} (h : word.toNat ≤ KMaxCodeLength) : asTInt (word - 1) = (word.toNat : ℤ) - 1 := by
  have hle : word.toNat ≤ 27 := h
  rw [asTInt_eq, UInt32.toNat_sub]
  have hone : (1 : UInt32).toNat = 1 := rfl
  rw [hone]
  rcases Nat.eq_zero_or_pos word.toNat with h0 | hpos
  · rw [h0]
    rfl
  · have hmod : (2 ^ 32 - 1 + word.toNat) % 2 ^ 32 = word.toNat - 1 := by omega
    rw [hmod, if_pos (by omega)]
    omega

/-! ### `IsValid` -/

/-- The space that a list of lengths takes. -/
def taken (lens : List ℕ) : ℕ :=
  (lens.map fun len => if 1 ≤ len ∧ len ≤ KMaxCodeLength then 2 ^ (KMaxCodeLength - len) else 0).sum

theorem toNat_one_shiftLeft {k : ℕ} (h : k ≤ KMaxCodeLength) : ((1 : UInt32) <<< UInt32.ofNat k).toNat = 2 ^ k := by
  have hk : k ≤ 27 := h
  have hpow : 2 ^ k ≤ 2 ^ 27 := Nat.pow_le_pow_right (by decide) hk
  rw [UInt32.toNat_shiftLeft, UInt32.toNat_ofNat_of_lt' (lt_of_le_of_lt hk (by decide)), Nat.mod_eq_of_lt (by omega : k < 32),
    Nat.shiftLeft_eq]
  have hone : (1 : UInt32).toNat = 1 := rfl
  rw [hone, Nat.one_mul, Nat.mod_eq_of_lt (by omega)]

/-- A valid table does not take more than the space of codes. -/
theorem isValidLoop_spec {codes : Words} {remain : UInt32} {totlen : ℤ} (h : isValidLoop codes remain totlen = true)
    (hnonneg : ∀ word ∈ codes, word.toNat < 2 ^ 31) :
    (∀ word ∈ codes, word.toNat ≤ KMaxCodeLength) ∧ taken (lengths codes) ≤ remain.toNat ∧
      (taken (lengths codes) = remain.toNat ∨ totlen + ((lengths codes).sum : ℕ) ≤ 1) := by
  induction codes generalizing remain totlen with
  | nil =>
    rw [isValidLoop, decide_eq_true_iff] at h
    refine ⟨fun _ hword => absurd hword List.not_mem_nil, Nat.zero_le _, ?_⟩
    rcases h with rfl | h
    · exact .inl rfl
    · exact .inr (by simpa [lengths] using h)
  | cons word codes ih =>
    have hrest := fun other hother => hnonneg other (List.mem_cons_of_mem _ hother)
    rw [isValidLoop, asTInt_of_lt (hnonneg word List.mem_cons_self)] at h
    by_cases hpos : (0 : ℤ) < word.toNat
    · simp only [hpos, if_true] at h
      split at h
      · simp at h
      · next hlong =>
        split at h
        · simp at h
        · next hfits =>
          have hlen : 1 ≤ word.toNat ∧ word.toNat ≤ KMaxCodeLength := by omega
          have hshift : ((KMaxCodeLength : ℤ) - word.toNat).toNat = KMaxCodeLength - word.toNat := by omega
          rw [hshift] at h hfits
          have hc := toNat_one_shiftLeft (Nat.sub_le KMaxCodeLength word.toNat)
          have hcle := UInt32.le_iff_toNat_le.mp (UInt32.not_lt.mp hfits)
          obtain ⟨hmax, hle, htaken⟩ := ih h hrest
          rw [UInt32.toNat_sub_of_le _ _ (UInt32.not_lt.mp hfits), hc] at hle htaken
          rw [hc] at hcle
          have hcons : taken (lengths (word :: codes)) = 2 ^ (KMaxCodeLength - word.toNat) + taken (lengths codes) := by
            simp [lengths, taken, hlen]
          refine ⟨?_, by omega, ?_⟩
          · intro other hother
            rcases List.mem_cons.mp hother with rfl | hmem
            · exact hlen.2
            · exact hmax other hmem
          · rcases htaken with htaken | htotal
            · left
              omega
            · right
              rw [lengths, List.map_cons, List.sum_cons, ← lengths]
              omega
    · simp only [hpos, if_false] at h
      have hzero : word.toNat = 0 := by omega
      obtain ⟨hmax, hle, htaken⟩ := ih h hrest
      refine ⟨?_, ?_, ?_⟩
      · intro other hother
        rcases List.mem_cons.mp hother with rfl | hmem
        · rw [hzero]
          exact Nat.zero_le _
        · exact hmax other hmem
      · simpa [lengths, taken, hzero] using hle
      · simpa [lengths, taken, hzero] using htaken

/-- A valid table: the lengths fill the space of codes, or there is at most one code. -/
theorem isValid_spec {aHuffman : Words} (h : IsValid aHuffman = true) (hnonneg : ∀ word ∈ aHuffman, word.toNat < 2 ^ 31) :
    (∀ word ∈ aHuffman, word.toNat ≤ KMaxCodeLength) ∧ firstCode (lengths aHuffman) KMaxCodeLength ≤ 2 ^ KMaxCodeLength ∧
      (firstCode (lengths aHuffman) KMaxCodeLength = 2 ^ KMaxCodeLength ∨ (lengths aHuffman).sum ≤ 1) := by
  obtain ⟨hmax, hle, htaken⟩ := isValidLoop_spec h fun word hword => hnonneg word (List.mem_reverse.mp hword)
  have hroom : ((1 : UInt32) <<< UInt32.ofNat KMaxCodeLength).toNat = 2 ^ KMaxCodeLength := toNat_one_shiftLeft le_rfl
  have hspace : taken (lengths aHuffman.reverse) = firstCode (lengths aHuffman) KMaxCodeLength := by
    rw [lengths, List.map_reverse, taken, List.map_reverse, List.sum_reverse, ← lengths, firstCode_eq_sum]
  have hsum : (lengths aHuffman.reverse).sum = (lengths aHuffman).sum := by
    rw [lengths, List.map_reverse, List.sum_reverse, ← lengths]
  rw [hspace, hroom] at hle htaken
  rw [hsum] at htaken
  refine ⟨fun word hword => hmax word (List.mem_reverse.mpr hword), hle, ?_⟩
  · rcases htaken with htaken | htotal
    · exact .inl htaken
    · right
      omega

/-! ### Counting -/

theorem modify_map_range {α : Type} (n i : ℕ) (f : ℕ → α) (g : α → α) :
    ((List.range n).map f).modify i g = (List.range n).map fun k => if k = i then g (f k) else f k := by
  apply List.ext_getElem?
  intro k
  rw [List.getElem?_modify, List.getElem?_map, List.getElem?_map]
  rcases h : (List.range n)[k]? with _ | x
  · rfl
  · have hx : x = k := by
      rw [List.getElem?_range (by simpa using (List.getElem?_eq_some_iff.mp h).1)] at h
      exact (Option.some.inj h).symm
    subst hx
    by_cases hi : x = i
    · simp [hi]
    · simp [hi, Ne.symm hi]

theorem getElem?_map_range {α : Type} {n i : ℕ} (f : ℕ → α) (h : i < n) : ((List.range n).map f)[i]? = some (f i) := by
  rw [List.getElem?_map, List.getElem?_range h]
  rfl

/-- The counts are those of the lengths, whichever of the two ways an entry is looked at. -/
theorem countLengths_spec (len : UInt32 → ℤ) {aHuffman : Words}
    (hmax : ∀ word ∈ aHuffman, word.toNat ≤ KMaxCodeLength)
    (hlen : ∀ word ∈ aHuffman, len word = (word.toNat : ℤ) - 1) :
    countLengths len aHuffman = .ok ((List.range KMaxCodeLength).map fun k => (lengths aHuffman).count (k + 1)) := by
  have hfold : ∀ (codes : Words) (counts : ℕ → ℕ), (∀ word ∈ codes, word.toNat ≤ KMaxCodeLength) →
      (∀ word ∈ codes, len word = (word.toNat : ℤ) - 1) →
      codes.foldlM (fun counts h => if 0 ≤ len h then modifyAt counts (len h) (· + 1) else .ok counts)
        ((List.range KMaxCodeLength).map counts) =
      (.ok ((List.range KMaxCodeLength).map fun k => counts k + (lengths codes).count (k + 1)) : Except Fault (List ℕ)) := by
    intro codes
    induction codes with
    | nil =>
      intro counts _ _
      rfl
    | cons word codes ih =>
      intro counts hmax hlen
      have hword := hmax word List.mem_cons_self
      rw [List.foldlM_cons, hlen word List.mem_cons_self]
      rcases Nat.eq_zero_or_pos word.toNat with h0 | hpos
      · rw [if_neg (by omega), ok_bind, ih counts (fun other hother => hmax other (List.mem_cons_of_mem _ hother))
          fun other hother => hlen other (List.mem_cons_of_mem _ hother)]
        simp [lengths, h0]
      · have hindex : (word.toNat : ℤ) - 1 = ((word.toNat - 1 : ℕ) : ℤ) := by omega
        rw [if_pos (by omega), hindex, modifyAt_nat (by rw [List.length_map, List.length_range]; omega), ok_bind]
        rw [modify_map_range, ih _ (fun other hother => hmax other (List.mem_cons_of_mem _ hother))
          fun other hother => hlen other (List.mem_cons_of_mem _ hother)]
        congr 1
        apply List.map_congr_left
        intro k _
        rw [lengths, lengths, List.map_cons, List.count_cons]
        by_cases hk : k = word.toNat - 1
        · have hsame : word.toNat = k + 1 := by omega
          rw [if_pos hk, hsame]
          simp
          omega
        · have hother : word.toNat ≠ k + 1 := by omega
          rw [if_neg hk]
          simp [hother]
  have hstart : List.replicate KMaxCodeLength 0 = (List.range KMaxCodeLength).map fun _ => 0 := by
    rw [List.map_const', List.length_range]
  rw [countLengths, hstart, hfold aHuffman _ hmax hlen]
  simp

theorem below_eq_sum (lens : List ℕ) (n : ℕ) : ((List.range n).map fun k => lens.count (k + 1)).sum = below lens n := by
  induction n with
  | zero => rfl
  | succ n ih => rw [List.range_succ, List.map_append, List.sum_append, ih, below, List.map_singleton, List.sum_singleton]

/-! ### What the counts are used for -/

theorem nextCodes_spec (lens : List ℕ) (k n : ℕ) :
    nextCodes ((List.range' k n).map fun k => lens.count (k + 1)) (UInt32.ofNat (firstCode lens k)) =
      (List.range' k n).map fun k => UInt32.ofNat (2 * firstCode lens k) := by
  induction n generalizing k with
  | zero => rfl
  | succ n ih =>
    have hdouble : UInt32.ofNat (firstCode lens k) <<< 1 = UInt32.ofNat (2 * firstCode lens k) := by
      rw [← UInt32.toNat_inj, UInt32.toNat_shiftLeft, UInt32.toNat_ofNat', UInt32.toNat_ofNat',
        show (1 : UInt32).toNat % 32 = 1 from rfl, Nat.shiftLeft_eq]
      omega
    rw [List.range'_succ, List.map_cons, List.map_cons, nextCodes, hdouble, ← UInt32.ofNat_add, ← firstCode, ih]

theorem levels_spec (lens : List ℕ) (codes : ℤ) (k n : ℕ) :
    levels (codes - below lens k) ((List.range' k n).map fun k => lens.count (k + 1)) =
      (List.range' k n).map fun k => codes - below lens k := by
  induction n generalizing k with
  | zero => rfl
  | succ n ih =>
    have hnext : codes - below lens k - (lens.count (k + 1) : ℤ) = codes - below lens (k + 1) := by
      rw [below]
      omega
    rw [List.range'_succ, List.map_cons, List.map_cons, levels, hnext, ih]

/-!
### The code words of a table (`encode.cpp`)

An entry of the encoding table is the space before the leaf of its symbol, with the length above it.
-/

/-- The entry of a code, from the number of the code among those of its length. -/
def codeEntry (code : ℕ) (len : UInt32) : UInt32 :=
  UInt32.ofNat code <<< UInt32.ofNat (KMaxCodeLength - len.toNat) ||| len <<< UInt32.ofNat KMaxCodeLength

/-- Each symbol gets the next code of its length. -/
theorem encodeLoop_spec (lens : List ℕ) {aHuffman : Words} (pre : List ℕ)
    (hmax : ∀ word ∈ aHuffman, word.toNat ≤ KMaxCodeLength) :
    ∃ table, encodeLoop aHuffman ((List.range KMaxCodeLength).map fun k =>
        UInt32.ofNat (2 * firstCode lens k + pre.count (k + 1))) = .ok table ∧
      ∀ j len, aHuffman[j]? = some len → len ≠ 0 → table[j]? = some (codeEntry (2 * firstCode lens (len.toNat - 1) +
        (pre ++ (lengths aHuffman).take j).count len.toNat) len) := by
  induction aHuffman generalizing pre with
  | nil => exact ⟨[], rfl, fun j len h => by simp at h⟩
  | cons word codes ih =>
    have hword := hmax word List.mem_cons_self
    have hle : word.toNat ≤ 27 := hword
    obtain ⟨table, hrun, htable⟩ := ih (pre ++ [word.toNat]) fun other hother => hmax other (List.mem_cons_of_mem _ hother)
    rw [encodeLoop, asTInt_of_lt (by omega)]
    have hstep : ∀ {entry : UInt32}, (word ≠ 0 → entry = codeEntry (2 * firstCode lens (word.toNat - 1) +
        pre.count word.toNat) word) → ∀ j len, (word :: codes)[j]? = some len → len ≠ 0 →
        (entry :: table)[j]? = some (codeEntry (2 * firstCode lens (len.toNat - 1) +
          (pre ++ (lengths (word :: codes)).take j).count len.toNat) len) := by
      intro entry hentry j len hj hlen
      rcases j with _ | j
      · obtain rfl : word = len := Option.some.inj hj
        simp [hentry hlen]
      · have hnext := htable j len hj hlen
        rw [List.append_assoc] at hnext
        exact hnext
    by_cases h0 : word = 0
    · subst h0
      have hsame : (fun k => UInt32.ofNat (2 * firstCode lens k + (pre ++ [(0 : UInt32).toNat]).count (k + 1))) =
          fun k => UInt32.ofNat (2 * firstCode lens k + pre.count (k + 1)) := by
        funext k
        simp
      rw [hsame] at hrun
      refine ⟨0 :: table, ?_, hstep fun h => absurd rfl h⟩
      simp only [UInt32.toNat_zero, Nat.cast_zero, if_true, hrun, ok_bind]
      rfl
    · have hpos : 0 < word.toNat := Nat.pos_of_ne_zero fun h => h0 (UInt32.toNat_inj.mp h)
      have hindex : (word.toNat : ℤ) - 1 = ((word.toNat - 1 : ℕ) : ℤ) := by omega
      have hshift : ((KMaxCodeLength : ℤ) - word.toNat).toNat = KMaxCodeLength - word.toNat := by omega
      have hk : word.toNat - 1 < KMaxCodeLength := by omega
      have hsucc : word.toNat - 1 + 1 = word.toNat := by omega
      have hmodify : ((List.range KMaxCodeLength).map fun k =>
          UInt32.ofNat (2 * firstCode lens k + pre.count (k + 1))).modify (word.toNat - 1) (· + 1) =
          (List.range KMaxCodeLength).map fun k =>
            UInt32.ofNat (2 * firstCode lens k + (pre ++ [word.toNat]).count (k + 1)) := by
        rw [modify_map_range]
        apply List.map_congr_left
        intro k _
        rw [List.count_append]
        split
        · next hk =>
          rw [hk, hsucc]
          simp [← Nat.add_assoc, UInt32.ofNat_add]
        · next hk =>
          have hne : word.toNat ≠ k + 1 := by omega
          simp [hne]
      refine ⟨codeEntry (2 * firstCode lens (word.toNat - 1) + pre.count word.toNat) word :: table, ?_, hstep fun _ => rfl⟩
      have hentry := elementAt_nat (getElem?_map_range (fun k => UInt32.ofNat (2 * firstCode lens k + pre.count (k + 1))) hk)
      rw [hsucc] at hentry
      have hfits : word.toNat - 1 < ((List.range KMaxCodeLength).map fun k =>
          UInt32.ofNat (2 * firstCode lens k + pre.count (k + 1))).length := by
        rw [List.length_map, List.length_range]
        exact hk
      simp only [hindex, hentry, hshift, ok_bind, modifyAt_nat hfits, hmodify, hrun]
      rw [if_neg (by omega)]
      rfl

theorem toNat_codeEntry {code : ℕ} {len : UInt32} (hle : len.toNat ≤ KMaxCodeLength) (hcode : code < 2 ^ len.toNat) :
    (codeEntry code len).toNat = 2 ^ KMaxCodeLength * len.toNat + code * 2 ^ (KMaxCodeLength - len.toNat) ∧
      code * 2 ^ (KMaxCodeLength - len.toNat) < 2 ^ KMaxCodeLength := by
  have hlen : len.toNat ≤ 27 := hle
  have hspace : code * 2 ^ (KMaxCodeLength - len.toNat) < 2 ^ KMaxCodeLength := by
    have hmul := (Nat.mul_lt_mul_right (Nat.two_pow_pos (KMaxCodeLength - len.toNat))).mpr hcode
    rwa [← Nat.pow_add, Nat.add_sub_cancel' hle] at hmul
  have hsmall : (2 : ℕ) ^ KMaxCodeLength = 134217728 := rfl
  have hpow : 2 ^ len.toNat ≤ 2 ^ 27 := Nat.pow_le_pow_right (by decide) hlen
  have hlow : (UInt32.ofNat code <<< UInt32.ofNat (KMaxCodeLength - len.toNat)).toNat =
      code * 2 ^ (KMaxCodeLength - len.toNat) := by
    rw [UInt32.toNat_shiftLeft, UInt32.toNat_ofNat_of_lt' (lt_trans hcode (lt_of_le_of_lt hpow (by decide))),
      UInt32.toNat_ofNat_of_lt' (lt_of_le_of_lt (Nat.sub_le _ _) (by decide)),
      Nat.mod_eq_of_lt (lt_of_le_of_lt (Nat.sub_le _ _) (by decide)), Nat.shiftLeft_eq]
    omega
  have hhigh : (len <<< UInt32.ofNat KMaxCodeLength).toNat = len.toNat <<< KMaxCodeLength := by
    rw [UInt32.toNat_shiftLeft, show (UInt32.ofNat KMaxCodeLength).toNat % 32 = KMaxCodeLength from rfl, Nat.shiftLeft_eq,
      hsmall]
    omega
  refine ⟨?_, hspace⟩
  rw [codeEntry, UInt32.or_comm, UInt32.toNat_or, hhigh, hlow, ← Nat.shiftLeft_add_eq_or_of_lt hspace, Nat.shiftLeft_eq,
    Nat.mul_comm]

theorem codeWord_codeEntry {code : ℕ} {len : UInt32} (hle : len.toNat ≤ KMaxCodeLength) (hcode : code < 2 ^ len.toNat) :
    codeWord (codeEntry code len) =
      codeBits KMaxCodeLength (code * 2 ^ (KMaxCodeLength - len.toNat)) 0 len.toNat := by
  obtain ⟨hentry, hspace⟩ := toNat_codeEntry hle hcode
  have hlen : (codeEntry code len).toNat >>> KMaxCodeLength = len.toNat := by
    rw [hentry, Nat.shiftRight_eq_div_pow, Nat.mul_add_div (Nat.two_pow_pos _), Nat.div_eq_of_lt hspace, Nat.add_zero]
  rw [codeWord, codeBits, hlen, hentry]
  apply List.map_congr_left
  intro k hk
  have hk' := List.mem_range.mp hk
  rw [Nat.testBit_two_pow_mul_add _ hspace, if_pos (by omega), Nat.zero_add]

end GnuPoc.Deflate
