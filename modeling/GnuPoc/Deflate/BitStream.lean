import GnuPoc.Deflate.BitInput
import GnuPoc.Deflate.Lengths

/-!
# GnuPoc.Deflate.BitStream — what is written is read back (`encode.cpp`, `decode.cpp`)

A read succeeds where it does so on the pieces of the input.  Which reads these are depends on no more than where the
words of the memory and the buffers come to their ends.
-/

namespace GnuPoc.Deflate

open GnuPoc.Lib

/-! ### A read of the pieces -/

/-- `ReadL` on the pieces: 32 bits are not taken of a whole word. -/
def readPieces (n : ℕ) (ps : List (List Bool)) : Option (List Bool × List (List Bool)) :=
  if n = 0 then some ([], ps)
  else if n = 32 ∧ (ps.headD []).length = 32 then none
  else takePieces n ps

theorem ReadL_takesBits {input : TBitInput} {n : ℕ} (h : input.Valid) (hn : n ≤ 32) :
    TakesBits (input.ReadL n) 0 n (readPieces n input.pieces) := by
  have hnonneg := h.nonneg
  have hle := h.le
  unfold TBitInput.ReadL readPieces
  by_cases hzero : n = 0
  · rw [if_pos hzero, if_pos hzero, hzero]
    exact ⟨0, input, 0, rfl, by decide, rfl, rfl, h, rfl⟩
  · rw [if_neg hzero, if_neg hzero]
    have hhead : (input.pieces.headD []).length = input.iCount.toNat := length_topBits _ _
    rw [hhead]
    by_cases hwhole : n = 32 ∧ input.iCount.toNat = 32
    · rw [if_pos hwhole]
      obtain ⟨rfl, hcount⟩ := hwhole
      rw [TBitInput.readLoop, if_neg (by dsimp only; omega)]
      exact ⟨.undefined, rfl⟩
    · rw [if_neg hwhole]
      exact readLoop_takesBits (Nat.pos_of_ne_zero hzero) hn (by omega) le_rfl (fun hboth => hwhole ⟨hboth.2, hboth.1⟩)
        (by dsimp only; omega) (by rw [Nat.zero_mul]; rfl)

theorem length_head_seekPieces : ∀ {ps : List (List Bool)} {s : ℕ}, (∀ p ∈ ps, p.length ≤ 32) → 0 < s →
    ((seekPieces ps s).headD []).length < 32
  | [], _, _, _ => by
    rw [seekPieces]
    decide
  | p :: ps, s, hps, hs => by
    have hp := hps p List.mem_cons_self
    rw [seekPieces]
    split
    · rw [List.headD_cons, List.length_drop]
      omega
    · exact length_head_seekPieces (fun q hq => hps q (List.mem_cons_of_mem _ hq)) (by omega)

/-- A read of `n` bits from the `s`-th on that does not begin where a piece ends, does not go across an empty one, and
does not take a whole word at once. -/
def Clear (lengths : List ℕ) (s n : ℕ) : Prop :=
  n = 0 ∨ Unbroken lengths s n ∧ ¬ (s = 0 ∧ n = 32 ∧ lengths.head? = some 32)

theorem readPieces_isSome {ps : List (List Bool)} {s n : ℕ} (hps : ∀ p ∈ ps, p.length ≤ 32)
    (h : s + n ≤ ps.flatten.length) :
    (readPieces n (seekPieces ps s)).isSome ↔ Clear (ps.map List.length) s n := by
  unfold readPieces Clear
  by_cases hzero : n = 0
  · rw [if_pos hzero]
    exact ⟨fun _ => .inl hzero, fun _ => rfl⟩
  · rw [if_neg hzero, ← takePieces_seekPieces_isSome ps s (Nat.pos_of_ne_zero hzero) h]
    have hhead : (n = 32 ∧ ((seekPieces ps s).headD []).length = 32) ↔
        s = 0 ∧ n = 32 ∧ (ps.map List.length).head? = some 32 := by
      rcases Nat.eq_zero_or_pos s with rfl | hpos
      · rw [seekPieces_zero]
        rcases ps with _ | ⟨p, ps⟩
        · simp
        · simp
      · have hlt := length_head_seekPieces hps hpos
        constructor
        · rintro ⟨-, heq⟩
          omega
        · rintro ⟨heq, -⟩
          omega
    by_cases hwhole : n = 32 ∧ ((seekPieces ps s).headD []).length = 32
    · rw [if_pos hwhole]
      simp [hhead.mp hwhole]
    · rw [if_neg hwhole, ← hhead]
      exact ⟨fun hsome => .inr ⟨hsome, hwhole⟩, fun hclear => (hclear.resolve_left hzero).1⟩

theorem readPieces_eq_some {ps rest : List (List Bool)} {v : List Bool} {s n : ℕ}
    (h : readPieces n (seekPieces ps s) = some (v, rest)) :
    v = (ps.flatten.drop s).take n ∧ rest = seekPieces ps (s + n) := by
  unfold readPieces at h
  split_ifs at h with hzero hwhole
  · obtain ⟨rfl, rfl⟩ := Prod.mk.inj (Option.some.inj h)
    rw [hzero]
    exact ⟨rfl, rfl⟩
  · obtain ⟨rfl, rfl, -⟩ := takePieces_eq_some h
    rw [flatten_seekPieces, seekPieces_seekPieces]
    exact ⟨rfl, rfl⟩

/-! ### TakesBits one behind the other -/

/-- The numbers of so many bits each. -/
def cut : List ℕ → List Bool → List ℕ
  | [], _ => []
  | n :: ns, bits => ofBits (bits.take n) :: cut ns (bits.drop n)

/-- Every read of a run is clear. -/
def AllClear (lengths ns : List ℕ) : Prop := ∀ i n, ns[i]? = some n → Clear lengths (ns.take i).sum n

theorem clear_cons {lengths ns : List ℕ} {s n : ℕ} :
    (∀ i m, (n :: ns)[i]? = some m → Clear lengths (s + ((n :: ns).take i).sum) m) ↔
      Clear lengths s n ∧ ∀ i m, ns[i]? = some m → Clear lengths (s + n + (ns.take i).sum) m := by
  constructor
  · intro h
    refine ⟨h 0 n rfl, fun i m hm => ?_⟩
    have hnext := h (i + 1) m hm
    rwa [List.take_succ_cons, List.sum_cons, ← Nat.add_assoc] at hnext
  · rintro ⟨hfirst, hnext⟩ i m hm
    rcases i with _ | i
    · obtain rfl : n = m := Option.some.inj hm
      exact hfirst
    · rw [List.take_succ_cons, List.sum_cons, ← Nat.add_assoc]
      exact hnext i m hm

/-- All reads give their bits exactly when every one is clear of the seams. -/
theorem readAll_iff {ps : List (List Bool)} (hps : ∀ p ∈ ps, p.length ≤ 32) (ns : List ℕ) :
    ∀ {s : ℕ} {input : TBitInput}, (∀ n ∈ ns, n ≤ 32) → input.Valid → input.pieces = seekPieces ps s →
    s + ns.sum ≤ ps.flatten.length →
    ((∃ rest, readAll ns input = .ok ((cut ns (ps.flatten.drop s)).map UInt32.ofNat, rest)) ↔
      ∀ i m, ns[i]? = some m → Clear (ps.map List.length) (s + (ns.take i).sum) m) := by
  induction ns with
  | nil =>
    intro s input _ _ _ _
    refine ⟨fun _ i m hm => by simp at hm, fun _ => ⟨input, rfl⟩⟩
  | cons n ns ih =>
    intro s input hns hvalid hpieces hlen
    rw [List.sum_cons] at hlen
    have hread := ReadL_takesBits hvalid (hns n List.mem_cons_self)
    rw [hpieces] at hread
    rw [clear_cons, ← readPieces_isSome hps (by omega)]
    rcases hresult : readPieces n (seekPieces ps s) with _ | ⟨v, rest⟩
    · rw [hresult] at hread
      obtain ⟨e, he⟩ := hread
      simp [readAll, he, bind, Except.bind]
    · rw [hresult] at hread
      obtain ⟨val, input', t, hval, ht, hnat, hv, hvalid', hpieces'⟩ := hread
      obtain ⟨hbits, rfl⟩ := readPieces_eq_some hresult
      have hfirst : ofBits ((ps.flatten.drop s).take n) = t := by
        rw [← hbits, hv, ofBits_bitString, Nat.mod_eq_of_lt ht]
      have hvalEq : UInt32.ofNat t = val := by
        rw [Nat.zero_mul, Nat.zero_add] at hnat
        rw [← hnat, UInt32.ofNat_toNat]
      have hrest := ih (fun m hm => hns m (List.mem_cons_of_mem _ hm)) hvalid' hpieces' (by omega)
      rw [← hrest, readAll, hval, cut, hfirst, List.map_cons, hvalEq, List.drop_drop, ok_bind]
      simp only [Option.isSome_some, true_and]
      constructor
      · rintro ⟨last, hlast⟩
        obtain ⟨⟨values, last'⟩, hrun, heq⟩ := bind_eq_ok.mp hlast
        obtain ⟨hvalues, rfl⟩ := Prod.mk.inj (Except.ok.inj heq)
        exact ⟨last', (List.cons.inj hvalues).2 ▸ hrun⟩
      · rintro ⟨last, hlast⟩
        refine ⟨last, ?_⟩
        rw [hlast]
        rfl

/-! ### The round trip -/

theorem Write.value_lt {w : Write} (h : w.Fits) : w.value < 2 ^ w.length := by
  cases w with
  | WriteL aValue aLength => exact Nat.mod_lt _ (Nat.two_pow_pos _)
  | HuffmanL aHuffCode =>
    simp only [Write.value, Write.length]
    rw [Nat.div_lt_iff_lt_mul (Nat.two_pow_pos _), ← Nat.pow_add, Nat.add_sub_cancel' h.1]
    exact Nat.mod_lt _ (Nat.two_pow_pos _)

theorem Write.length_le {w : Write} (h : w.Fits) : w.length ≤ 32 := by
  cases w with
  | WriteL aValue aLength => exact h
  | HuffmanL aHuffCode => exact le_trans h.1 (by decide)

theorem cut_written (writes : List Write) (hfits : ∀ w ∈ writes, w.Fits) (padding : List Bool) :
    cut (writes.map Write.length) ((writes.flatMap fun w => bitString w.length w.value) ++ padding) =
      writes.map Write.value := by
  induction writes with
  | nil => rfl
  | cons w writes ih =>
    have hlen : (bitString w.length w.value).length = w.length := length_bitString _ _
    rw [List.map_cons, List.map_cons, List.flatMap_cons, List.append_assoc, cut, List.take_left' hlen,
      List.drop_left' hlen, ih fun w' hw' => hfits w' (List.mem_cons_of_mem _ hw'), ofBits_bitString,
      Nat.mod_eq_of_lt (Write.value_lt (hfits w List.mem_cons_self))]

theorem length_le_of_mem_pieces {b : Buffer} {p : List Bool} (h : p ∈ b.pieces) : p.length ≤ 32 := by
  rw [Buffer.pieces, List.mem_cons, wordPieces, List.mem_map] at h
  obtain rfl | ⟨k, -, rfl⟩ := h
  · rw [length_memoryBits, Buffer.firstLength]
    omega
  · rw [length_memoryBits]
    exact min_le_left _ _

theorem readAll_buffers_iff (iBits : UInt32) (b : Buffer) (buffers : List Buffer) (ns : List ℕ) (hns : ∀ n ∈ ns, n ≤ 32)
    (h : ns.sum ≤ ((b :: buffers).flatMap Buffer.bits).length) :
    (∃ input, readAll ns (.onBuffer iBits b buffers) =
        .ok ((cut ns ((b :: buffers).flatMap Buffer.bits)).map UInt32.ofNat, input)) ↔
      AllClear ((b :: buffers).flatMap Buffer.lengths) ns := by
  have hflat : ((b :: buffers).flatMap Buffer.pieces).flatten = (b :: buffers).flatMap Buffer.bits := by
    rw [← List.flatMap_id, List.flatMap_assoc]
    refine List.flatMap_congr fun b _ => ?_
    rw [List.flatMap_id, b.flatten_pieces]
  have hlengths : ((b :: buffers).flatMap Buffer.pieces).map List.length = (b :: buffers).flatMap Buffer.lengths := by
    rw [List.map_flatMap]
    exact List.flatMap_congr fun b _ => b.map_length_pieces
  have hps : ∀ p ∈ (b :: buffers).flatMap Buffer.pieces, p.length ≤ 32 := by
    intro p hp
    obtain ⟨b', -, hp'⟩ := List.mem_flatMap.mp hp
    exact length_le_of_mem_pieces hp'
  have hpieces : (TBitInput.onBuffer iBits b buffers).pieces = seekPieces ((b :: buffers).flatMap Buffer.pieces) 0 := by
    rw [seekPieces_zero, List.flatMap_cons]
    exact TBitInput.Set_pieces _ b
  have hvalid : (TBitInput.onBuffer iBits b buffers).Valid := TBitInput.Set_valid _ b
  have hall := readAll_iff hps ns hns hvalid hpieces (by rwa [hflat, Nat.zero_add])
  rw [hflat, List.drop_zero, hlengths] at hall
  simp only [Nat.zero_add] at hall
  exact hall

/-- Of the bytes that have been written, in any buffers and behind any bit offset, reads of the same lengths give the
low bits of the values, and reads of any lengths the bits one behind the other, if and only if they are clear. -/
theorem readAll_produced_iff (aSize : ℕ) (sizes : ℕ → ℕ+) (writes : List Write) (hfits : ∀ w ∈ writes, w.Fits)
    (aPadding iBits : UInt32) (b : Buffer) (buffers : List Buffer)
    (h : (b :: buffers).flatMap Buffer.bits = bitsOfBytes (produced (.new aSize sizes) writes aPadding)) :
    ((∃ input, readAll (writes.map Write.length) (.onBuffer iBits b buffers) =
        .ok (writes.map fun w => UInt32.ofNat w.value, input)) ↔
      AllClear ((b :: buffers).flatMap Buffer.lengths) (writes.map Write.length)) ∧
    ∀ ns : List ℕ, (∀ n ∈ ns, n ≤ 32) → ns.sum ≤ 8 * (produced (.new aSize sizes) writes aPadding).length →
      ((∃ input, readAll ns (.onBuffer iBits b buffers) =
          .ok ((cut ns (bitsOfBytes (produced (.new aSize sizes) writes aPadding))).map UInt32.ofNat, input)) ↔
        AllClear ((b :: buffers).flatMap Buffer.lengths) ns) := by
  have hany : ∀ ns : List ℕ, (∀ n ∈ ns, n ≤ 32) → ns.sum ≤ 8 * (produced (.new aSize sizes) writes aPadding).length →
      ((∃ input, readAll ns (.onBuffer iBits b buffers) =
          .ok ((cut ns (bitsOfBytes (produced (.new aSize sizes) writes aPadding))).map UInt32.ofNat, input)) ↔
        AllClear ((b :: buffers).flatMap Buffer.lengths) ns) := by
    intro ns hns hsum
    rw [← length_bitsOfBytes, ← h] at hsum
    rw [← h]
    exact readAll_buffers_iff iBits b buffers ns hns hsum
  refine ⟨?_, hany⟩
  obtain ⟨padding, -, hbits⟩ := bitsOfBytes_produced aSize sizes hfits aPadding
  have hle : ∀ n ∈ writes.map Write.length, n ≤ 32 := by
    intro n hn
    obtain ⟨w, hw, rfl⟩ := List.mem_map.mp hn
    exact Write.length_le (hfits w hw)
  have hsum : (writes.map Write.length).sum ≤ 8 * (produced (.new aSize sizes) writes aPadding).length := by
    rw [← length_bitsOfBytes, hbits, List.length_append, List.length_flatMap]
    simp only [length_bitString]
    exact Nat.le_add_right _ _
  have hsame := hany _ hle hsum
  rwa [hbits, cut_written writes hfits padding, List.map_map] at hsame

/-- A value of which the first bits stand in one buffer and the others in the next. -/
theorem readAll_produced_sample :
    ∃ input, readAll [3, 4] (.onBuffer 0 ⟨fun _ => 0xa2, 0, 5, 0⟩ [⟨fun _ => 0xa2, 0, 3, 5⟩]) = .ok ([5, 1], input) := by
  have hclear : AllClear [5, 3] [3, 4] := by
    intro i n hn
    rcases i with _ | _ | i
    · obtain rfl : 3 = n := Option.some.inj hn
      exact .inr (by decide)
    · obtain rfl : 4 = n := Option.some.inj hn
      exact .inr (by decide)
    · simp at hn
  exact ((readAll_produced_iff 1 (fun _ => 1) [.WriteL 13 3, .WriteL 1 4] (by decide) 0 0 ⟨fun _ => 0xa2, 0, 5, 0⟩
    [⟨fun _ => 0xa2, 0, 3, 5⟩] (by decide +kernel)).1).mpr hclear

/-- A code as `Encoding` makes it. -/
theorem fits_codeEntry {code : ℕ} {len : UInt32} (hle : len.toNat ≤ KMaxCodeLength) (hcode : code < 2 ^ len.toNat) :
    (Write.HuffmanL (codeEntry code len)).Fits := by
  obtain ⟨hentry, hspace⟩ := toNat_codeEntry hle hcode
  have hlen : (codeEntry code len).toNat / 2 ^ KMaxCodeLength = len.toNat := by
    rw [hentry, Nat.mul_add_div (Nat.two_pow_pos _), Nat.div_eq_of_lt hspace, Nat.add_zero]
  have hword : (codeEntry code len).toNat % 2 ^ KMaxCodeLength = code * 2 ^ (KMaxCodeLength - len.toNat) := by
    rw [hentry, Nat.mul_add_mod, Nat.mod_eq_of_lt hspace]
  rw [Write.Fits, hlen, hword]
  exact ⟨hle, Nat.dvd_mul_left _ _⟩

/-- The bits of a code that `HuffmanL` writes. -/
theorem codeWord_eq_bitString {aHuffCode : UInt32} (h : (Write.HuffmanL aHuffCode).Fits) :
    codeWord aHuffCode = bitString (Write.HuffmanL aHuffCode).length (Write.HuffmanL aHuffCode).value := by
  have hle := h.1
  rw [codeWord, Nat.shiftRight_eq_div_pow]
  apply List.map_congr_left
  intro k hk
  have hk' : k < aHuffCode.toNat / 2 ^ KMaxCodeLength := List.mem_range.mp hk
  have hplace : aHuffCode.toNat / 2 ^ KMaxCodeLength - 1 - k + (KMaxCodeLength - aHuffCode.toNat / 2 ^ KMaxCodeLength) =
      KMaxCodeLength - 1 - k := by omega
  rw [Write.length, Write.value, Nat.testBit_div_two_pow, hplace, Nat.testBit_mod_two_pow, decide_eq_true (by omega),
    Bool.true_and]

/-! ### Two words -/

/-- The bytes of two words, at the beginning of a word of the memory. -/
def twoWords : Buffer where
  memory := fun k => [0x80, 0, 0, 1, 0, 0, 0, 1].getD k 0
  aPtr := 0
  aLength := 64
  aOffset := 0

/-- A whole word is shifted by its width. -/
theorem two_words_not_read : twoWords.bits = bitsOfBytes (produced (.new 8 fun _ => 1)
      [.WriteL 0x80000001 32, .WriteL 1 32] 0) ∧
    ¬ ∃ input, readAll [32, 32] (.onBuffer 0 twoWords []) = .ok ([0x80000001, 1], input) := by
  refine ⟨by decide +kernel, ?_⟩
  rintro ⟨input, h⟩
  have hfault : readAll [32, 32] (.onBuffer 0 twoWords []) = .error .undefined := rfl
  rw [hfault] at h
  simp at h

end GnuPoc.Deflate
