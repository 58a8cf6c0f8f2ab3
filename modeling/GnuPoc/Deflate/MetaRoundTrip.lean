import GnuPoc.Deflate.MetaCode
import Mathlib.Data.List.Perm.Basic
import Mathlib.Data.List.Range

/-!
# GnuPoc.Deflate.MetaRoundTrip — a table is restored from its bits (`encode.cpp`, `decode.cpp`)

Behind index `0`, which only the decoder writes, both sides keep the same list: the values of a length other than the last
one.  The decoder stops reading where the last run fills the table.
-/

namespace GnuPoc.Deflate

/-! ### The list -/

theorem length_moveUp (low n : ℕ) (list : List UInt8) : (moveUp low n list).length = list.length := by
  induction n generalizing list with
  | zero => rfl
  | succ n ih => rw [moveUp, ih, List.length_set]

theorem getElem?_moveUp {low n : ℕ} {list : List UInt8} (h : low + n < list.length) (k : ℕ) :
    (moveUp low n list)[k]? = if low < k ∧ k ≤ low + n then list[k - 1]? else list[k]? := by
  induction n generalizing list with
  | zero =>
    rw [moveUp, if_neg (by omega)]
  | succ n ih =>
    rw [moveUp, ih (by rw [List.length_set]; omega)]
    have hget : list[low + n]? = some (list.getD (low + n) 0) := by
      rw [List.getD_eq_getElem?_getD, List.getElem?_eq_getElem (by omega)]
      rfl
    by_cases hlast : k = low + n + 1
    · subst hlast
      rw [if_neg (by omega), if_pos (by omega), List.getElem?_set_self (by omega), ← hget]
      rfl
    · by_cases hinside : low < k ∧ k ≤ low + n
      · rw [if_pos hinside, if_pos (by omega), List.getElem?_set_ne (by omega)]
      · rw [if_neg hinside, if_neg (by omega), List.getElem?_set_ne (by omega)]

variable {others : List UInt8}

/-- What the encoder makes of its list behind index `0`. -/
theorem tail_encoded (a last : UInt8) {i : ℕ} (h : i < others.length) :
    ((moveUp 1 i (a :: others)).set 1 last).tail = last :: others.eraseIdx i := by
  have hlen : 1 + i < (a :: others).length := by
    rw [List.length_cons]
    omega
  ext1 k
  rw [← List.drop_one, List.getElem?_drop]
  rcases k with _ | k
  · rw [List.getElem?_set_self (by rw [length_moveUp]; omega)]
    rfl
  · rw [List.getElem?_set_ne (by omega), getElem?_moveUp hlen, List.getElem?_cons_succ, List.getElem?_eraseIdx,
      Nat.add_comm 1, List.getElem?_cons_succ]
    by_cases hk : k < i
    · rw [if_pos hk, if_pos (by omega)]
      rfl
    · rw [if_neg hk, if_neg (by omega)]

/-- What the decoder makes of its list behind index `0`. -/
theorem tail_decoded (last : UInt8) {i : ℕ} (h : i < others.length) :
    (moveUp 0 (i + 1) (last :: others)).tail = last :: others.eraseIdx i := by
  have hlen : 0 + (i + 1) < (last :: others).length := by
    rw [List.length_cons]
    omega
  ext1 k
  rw [← List.drop_one, List.getElem?_drop, getElem?_moveUp hlen, Nat.add_comm 1]
  rcases k with _ | k
  · rw [if_pos (by omega)]
    rfl
  · rw [List.getElem?_cons_succ, List.getElem?_cons_succ, List.getElem?_eraseIdx]
    by_cases hk : k < i
    · rw [if_pos hk, if_pos (by omega)]
      rfl
    · rw [if_neg hk, if_neg (by omega)]

theorem exists_cons_of_tail {list others : List UInt8} {last : UInt8} (h : list.tail = last :: others) :
    ∃ a, list = a :: last :: others := by
  cases list with
  | nil => cases h
  | cons a list => exact ⟨a, by rw [← h]; rfl⟩

theorem findCode_of_mem {c : UInt8} (h : c ∈ others) (j : ℕ) :
    ∃ i, others[i]? = some c ∧ findCode c.toUInt32 others j = .ok (j + i) := by
  induction others generalizing j with
  | nil => exact absurd h List.not_mem_nil
  | cons x others ih =>
    rw [findCode]
    by_cases hx : x = c
    · exact ⟨0, by rw [hx]; rfl, by rw [if_pos (by rw [hx])]; rfl⟩
    · have hne : x.toUInt32 ≠ c.toUInt32 := fun heq => hx (UInt8.toUInt32_inj.mp heq)
      obtain ⟨i, hi, hfind⟩ := ih ((List.mem_cons.mp h).resolve_left (Ne.symm hx)) (j + 1)
      exact ⟨i + 1, hi, by rw [if_neg hne, hfind, Nat.add_assoc, Nat.add_comm 1]⟩

/-! ### Turns of the decoder -/

theorem writeRun_eq {aNumCodes : ℕ} {last : UInt32} {rl : ℕ} {written : Words} (h : written.length + rl ≤ aNumCodes) :
    writeRun aNumCodes last rl written = (written ++ List.replicate rl last, true) := by
  induction rl generalizing written with
  | zero => rw [writeRun, List.replicate_zero, List.append_nil]
  | succ rl ih =>
    rw [writeRun, if_neg (by omega), ih (by rw [List.length_append, List.length_singleton]; omega), List.append_assoc,
      List.replicate_succ, List.singleton_append]

section
variable {aNumCodes : ℕ} {written : Words} {list : List UInt8} {last : UInt32} {rl : ℕ} {bits rest : List Bool}

theorem internalizeLoop_digit (hmore : written.length + rl < aNumCodes) {c : UInt32}
    (hread : HuffmanL HuffmanDecoding bits = .ok (c, rest)) (hdigit : c < 2) :
    internalizeLoop aNumCodes written list last rl bits =
      internalizeLoop aNumCodes written list last (rl + rl + c.toNat + 1) rest := by
  rw [internalizeLoop, if_pos hmore]
  split
  · next hfault => rw [hread] at hfault; cases hfault
  · next c' rest' hok =>
    obtain ⟨rfl, rfl⟩ := Prod.mk.inj (Except.ok.inj (hread.symm.trans hok))
    rw [if_pos hdigit]

theorem internalizeLoop_literal (hmore : written.length + rl < aNumCodes) {j : ℕ} {next : UInt8} (hj : j < 28)
    (hread : HuffmanL HuffmanDecoding bits = .ok (UInt32.ofNat (j + 1), rest)) (hpos : 1 ≤ j)
    (hnext : (list.set 0 last.toUInt8)[j]? = some next) :
    internalizeLoop aNumCodes written list last rl bits =
      internalizeLoop aNumCodes (written ++ List.replicate rl last ++ [next.toUInt32])
        (moveUp 0 j (list.set 0 last.toUInt8)) next.toUInt32 0 rest := by
  have hc : (UInt32.ofNat (j + 1)).toNat = j + 1 := UInt32.toNat_ofNat_of_lt' (lt_trans (by omega : j + 1 < 29) (by decide))
  have hliteral : ¬ UInt32.ofNat (j + 1) < 2 := by
    rw [UInt32.lt_iff_toNat_lt, hc]
    show ¬ j + 1 < 2
    omega
  have helement : elementAt (list.set 0 last.toUInt8) ((j : ℕ) : ℤ) = .ok next := by
    rw [elementAt, Int.toNat_natCast, hnext]
    exact if_pos (Int.natCast_nonneg j)
  rw [internalizeLoop, if_pos hmore]
  split
  · next hfault => rw [hread] at hfault; cases hfault
  · next c' rest' hok =>
    obtain ⟨rfl, rfl⟩ := Prod.mk.inj (Except.ok.inj (hread.symm.trans hok))
    rw [if_neg hliteral, writeRun_eq hmore.le]
    simp only [hc, Nat.add_sub_cancel, helement]
    rw [if_neg (by rw [List.length_append, List.length_replicate]; omega)]

theorem internalizeLoop_end (hfull : written.length + rl = aNumCodes) :
    internalizeLoop aNumCodes written list last rl bits = (written ++ List.replicate rl last, .finishes bits) := by
  rw [internalizeLoop, if_neg (by omega), writeRun_eq hfull.le]

theorem internalizeLoop_run (h : rl = 0 ∨ written.length + (rl - 1) / 2 < aNumCodes) :
    internalizeLoop aNumCodes written list last 0 (EncodeRunLengthL rl ++ rest) =
      internalizeLoop aNumCodes written list last rl rest := by
  unfold EncodeRunLengthL
  induction rl using Nat.strongRecOn generalizing rest with
  | _ rl ih =>
    rw [runLengthCode]
    by_cases hpos : 0 < rl
    · rw [if_pos hpos, List.append_assoc, ih ((rl - 1) / 2) (by omega) (by omega)]
      have hdigit : (UInt32.ofNat (1 - rl % 2)).toNat = 1 - rl % 2 :=
        UInt32.toNat_ofNat_of_lt' (lt_of_le_of_lt (Nat.sub_le 1 _) (by decide))
      rw [internalizeLoop_digit (by omega) (HuffmanL_metaCode (by omega) rest), hdigit]
      · congr 1
        omega
      · rw [UInt32.lt_iff_toNat_lt, hdigit]
        show 1 - rl % 2 < 2
        omega
    · obtain rfl : rl = 0 := by omega
      rw [if_neg hpos, List.nil_append]

end

/-! ### The round trip -/

/-- `others` are the lengths up to `KMaxCodeLength` but the last one. -/
def Others (last : UInt8) (others : List UInt8) : Prop := (last :: others).Perm metaList

theorem Others.length {last : UInt8} (h : Others last others) : others.length = KMaxCodeLength := by
  have hlen := h.length_eq
  rw [metaList, List.length_map, List.length_range, List.length_cons, KMetaCodes] at hlen
  omega

theorem mem_metaList {c : UInt8} (h : c.toNat ≤ KMaxCodeLength) : c ∈ metaList :=
  List.mem_map.mpr ⟨c.toNat, List.mem_range.mpr (Nat.lt_succ_of_le h), UInt8.ofNat_toNat⟩

theorem Others.mem {last c : UInt8} (h : Others last others) (hc : c.toNat ≤ KMaxCodeLength)
    (hne : c ≠ last) : c ∈ others :=
  (List.mem_cons.mp (h.mem_iff.mpr (mem_metaList hc))).resolve_left hne

theorem Others.next {last c : UInt8} {i : ℕ} (h : Others last others) (hi : others[i]? = some c) :
    Others c (last :: others.eraseIdx i) := by
  obtain ⟨hlt, hget⟩ := List.getElem?_eq_some_iff.mp hi
  have hperm := List.getElem_cons_eraseIdx_perm hlt
  rw [hget] at hperm
  exact ((List.Perm.swap last c _).trans (hperm.cons last)).trans h

/-- The bits for the rest of a table, behind a run of `rl`, are read as that run and the rest. -/
theorem externalizeLoop_spec (aHuffman : Words) (h : ∀ len ∈ aHuffman, len.toNat ≤ KMaxCodeLength) {a b last : UInt8} (hothers : Others last others) (rl : ℕ) :
    ∃ bits, externalizeLoop metaCode aHuffman (a :: others) last.toUInt32 rl = .ok bits ∧ ∀ (written : Words) rest,
      internalizeLoop (written.length + rl + aHuffman.length) written (b :: others) last.toUInt32 0 (bits ++ rest) =
        (written ++ List.replicate rl last.toUInt32 ++ aHuffman, .finishes rest) := by
  induction aHuffman generalizing a b last others rl with
  | nil =>
    refine ⟨EncodeRunLengthL rl, rfl, fun written rest => ?_⟩
    rw [internalizeLoop_run (by rw [List.length_nil]; omega), internalizeLoop_end (by simp), List.append_nil]
  | cons len aHuffman ih =>
    have htail : ∀ other ∈ aHuffman, other.toNat ≤ KMaxCodeLength := fun other hother => h other (List.mem_cons_of_mem _ hother)
    have hlen : len.toNat ≤ KMaxCodeLength := h len List.mem_cons_self
    rw [externalizeLoop]
    by_cases hrepeat : len = last.toUInt32
    · obtain ⟨bits, hbits, hread⟩ := ih htail (a := a) (b := b) hothers (rl + 1)
      refine ⟨bits, by rw [if_pos hrepeat, hbits], fun written rest => ?_⟩
      rw [List.length_cons, hrepeat, show written.length + rl + (aHuffman.length + 1) = written.length + (rl + 1) +
        aHuffman.length by omega, hread, List.replicate_succ']
      simp
    · obtain ⟨c, rfl⟩ : ∃ c : UInt8, len = c.toUInt32 := by
        refine ⟨len.toUInt8, UInt32.toNat_inj.mp ?_⟩
        rw [UInt8.toNat_toUInt32, UInt32.toNat_toUInt8]
        exact (Nat.mod_eq_of_lt (lt_of_le_of_lt hlen (by decide))).symm
      have hc : c.toNat ≤ KMaxCodeLength := UInt8.toNat_toUInt32 c ▸ hlen
      obtain ⟨i, hi, hfind⟩ := findCode_of_mem (hothers.mem hc fun heq => hrepeat (by rw [heq])) 1
      have hroom : i < others.length := (List.getElem?_eq_some_iff.mp hi).1
      have hlast : i < 27 := lt_of_lt_of_eq hroom hothers.length
      obtain ⟨a', ha'⟩ := exists_cons_of_tail (tail_encoded a last hroom)
      obtain ⟨b', hb'⟩ := exists_cons_of_tail (tail_decoded last hroom)
      obtain ⟨bits, hbits, hread⟩ := ih htail (a := a') (b := b') (hothers.next hi) 0
      refine ⟨EncodeRunLengthL rl ++ (metaCode (1 + i + 1) ++ bits), ?_, fun written rest => ?_⟩
      · rw [if_neg hrepeat, List.tail_cons, hfind]
        show (externalizeLoop metaCode aHuffman ((moveUp 1 (1 + i - 1) (a :: others)).set 1 last.toUInt32.toUInt8) c.toUInt32 0 >>=
          fun bits => pure (EncodeRunLengthL rl ++ (metaCode (1 + i + 1) ++ bits))) = _
        rw [Nat.add_sub_cancel_left, UInt8.toUInt8_toUInt32, ha', hbits]
        rfl
      · have hlist : (b :: others).set 0 last.toUInt32.toUInt8 = last :: others := by
          rw [UInt8.toUInt8_toUInt32]
          rfl
        have hnext : ((b :: others).set 0 last.toUInt32.toUInt8)[1 + i]? = some c := by
          rw [hlist, Nat.add_comm 1, List.getElem?_cons_succ, hi]
        rw [List.length_cons, List.append_assoc, internalizeLoop_run (by omega), List.append_assoc,
          internalizeLoop_literal (by omega) (by omega) (HuffmanL_metaCode (by omega) (bits ++ rest)) (by omega) hnext,
          hlist, Nat.add_comm 1 i, hb']
        have hall := hread (written ++ List.replicate rl last.toUInt32 ++ [c.toUInt32]) rest
        simp only [List.length_append, List.length_replicate, List.length_singleton, Nat.add_zero, List.replicate_zero,
          List.append_nil] at hall
        rw [show written.length + rl + (aHuffman.length + 1) = written.length + rl + 1 + aHuffman.length by omega, hall]
        simp

/-- **Round trip.**  A table of lengths is restored from its bits, whatever follows them. -/
theorem InternalizeL_ExternalizeL (aHuffman : Words) (h : ∀ len ∈ aHuffman, len.toNat ≤ KMaxCodeLength) :
    ∃ bits, ExternalizeL aHuffman = .ok bits ∧
      ∀ rest, InternalizeL (bits ++ rest) aHuffman.length = (aHuffman, .finishes rest) := by
  obtain ⟨others, hlist⟩ : ∃ others, metaList = 0 :: others := ⟨_, rfl⟩
  have hothers : Others 0 others := by
    rw [Others, hlist]
  obtain ⟨bits, hbits, hread⟩ := externalizeLoop_spec aHuffman h (a := 0) (b := 0) hothers 0
  refine ⟨bits, by rw [ExternalizeL, hlist]; exact hbits, fun rest => ?_⟩
  have hall := hread [] rest
  rw [List.length_nil, Nat.zero_add] at hall
  rw [InternalizeL, hlist]
  exact hall

theorem InternalizeL_ExternalizeL_sample :
    ∃ bits, ExternalizeL [3, 3, 3, 0, 27, 3, 4, 4, 4] = .ok bits ∧
      ∀ rest, InternalizeL (bits ++ rest) 9 = ([3, 3, 3, 0, 27, 3, 4, 4, 4], .finishes rest) :=
  InternalizeL_ExternalizeL [3, 3, 3, 0, 27, 3, 4, 4, 4] (by simp [KMaxCodeLength])

end GnuPoc.Deflate
