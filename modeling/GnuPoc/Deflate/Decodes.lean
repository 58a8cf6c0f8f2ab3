import GnuPoc.Deflate.Leaves
import Mathlib.Algebra.Order.BigOperators.Group.List

/-!
# GnuPoc.Deflate.Decodes — what is encoded is decoded (`encode.cpp`, `decode.cpp`)

A code word is the way to its leaf, in every table that `IsValid` accepts and that has no length from `2 ^ 31` on.
-/

namespace GnuPoc.Deflate

open GnuPoc.Lib

/-- Every code word of the table is decoded to its symbol, on a tree that would be the same if the lengths were kept
apart, and the bits of a single code do not matter. -/
structure Decodes (aHuffman : Words) (aSymbolBase : UInt32) : Prop where
  symbols : ∀ s len, aHuffman[s]? = some len → len ≠ 0 → ∃ table tree code, Encoding aHuffman = .ok table ∧
    Decoding aHuffman aSymbolBase = .ok tree ∧ table[s]? = some code ∧ (codeWord code).length = len.toNat ∧
    ∀ rest, HuffmanL tree (codeWord code ++ rest) = .ok (UInt32.ofNat s + aSymbolBase, rest)
  inPlace : Decoding aHuffman aSymbolBase = DecodingApart aHuffman aSymbolBase
  single : ∀ s len, aHuffman[s]? = some len → len ≠ 0 →
    (∀ s' len', aHuffman[s']? = some len' → len' ≠ 0 → s' = s) → ∃ tree, Decoding aHuffman aSymbolBase = .ok tree ∧
    ∀ bit rest, HuffmanL tree (bit :: rest) = .ok (UInt32.ofNat s + aSymbolBase, rest)

section
variable {aHuffman : Words}

/-! ### The decoding tree -/

/-- What the tree in memory is, by the number of codes. -/
structure TreeOf (L : List (ℕ × ℕ)) (base : ℕ) (tree : Words) : Prop where
  single : ∀ leaf, L = [leaf] → ∃ word, tree[0]? = some word ∧ word.toNat / 65536 = term base leaf.2 ∧
    word.toNat % 65536 = term base leaf.2
  several : 1 < L.length → ∃ t : CodeTree ℕ, t.leaves 0 = L ∧ Linked tree base 0 0 t

/-- Once the leaves are placed, the tree over them is left to build. -/
theorem decodingFrom_placed {lengthsOf leavesOf : Words → Words → Words} {base : ℕ} (hvalid : IsValid aHuffman = true)
    (hmax : ∀ word ∈ aHuffman, word.toNat ≤ KMaxCodeLength)
    (hreads : ReadsLengths (lengthsOf aHuffman) aHuffman (UInt32.ofNat base <<< 17 + KHuffTerminate <<< 16)) :
    decodingFrom lengthsOf leavesOf aHuffman (UInt32.ofNat base) =
      let tree := placed aHuffman (UInt32.ofNat base <<< 17 + KHuffTerminate <<< 16) aHuffman.length
      let codes := (tableLeaves aHuffman).length
      if codes = 1 then do
        let word ← elementAt tree 0
        modifyAt tree 0 fun _ => word >>> 16 ||| word >>> 16 <<< 16
      else if 1 < codes then do
        let (_, tree) ← HuffmanSubTree (leavesOf tree) (levelsAt aHuffman aHuffman.length) ((codes : ℤ) - 1) ((codes : ℤ) - 1) tree
        pure tree
      else pure tree := by
  have hcounts := countLengths_spec (fun h => asTInt h - 1) hmax fun word hword => by
    have hle : word.toNat ≤ 27 := hmax word hword
    rw [asTInt_of_lt (by omega)]
  have hcodes : ((List.range KMaxCodeLength).map fun k => (lengths aHuffman).count (k + 1)).sum =
      (tableLeaves aHuffman).length := by
    rw [below_eq_sum, length_tableLeaves]
  have hlevels : levels ((tableLeaves aHuffman).length : ℤ)
      ((List.range KMaxCodeLength).map fun k => (lengths aHuffman).count (k + 1)) = levelsAt aHuffman 0 := by
    have hspec := levels_spec (lengths aHuffman) (tableLeaves aHuffman).length 0 KMaxCodeLength
    rw [below, Nat.cast_zero, sub_zero, ← List.range_eq_range'] at hspec
    rw [hspec, levelsAt]
    simp
  rw [decodingFrom, if_neg (by simp [hvalid]), hcounts, ok_bind]
  dsimp only
  rw [hcodes, hlevels, placeLeaves_spec hmax hreads le_rfl, ok_bind]

/-- A valid table has a decoding tree, and the same from lengths kept apart. -/
theorem exists_decoding {base : ℕ} (hvalid : IsValid aHuffman = true)
    (hmax : ∀ word ∈ aHuffman, word.toNat ≤ KMaxCodeLength) (hbase : aHuffman.length + base ≤ 2 ^ 15)
    (hsmall : 4 * aHuffman.length < 65536)
    (hfull : 1 < (tableLeaves aHuffman).length → space KMaxCodeLength (tableLeaves aHuffman) = 2 ^ KMaxCodeLength) :
    ∃ tree, Decoding aHuffman (UInt32.ofNat base) = .ok tree ∧ DecodingApart aHuffman (UInt32.ofNat base) = .ok tree ∧
      TreeOf (tableLeaves aHuffman) base tree := by
  rw [Decoding, DecodingApart, decodingFrom_placed hvalid hmax (readsLengths_id hmax hbase),
    decodingFrom_placed hvalid hmax (readsLengths_copy hmax)]
  have hholds := holds_placed hmax hbase
  have hlength : (placed aHuffman (UInt32.ofNat base <<< 17 + KHuffTerminate <<< 16) aHuffman.length).length =
      aHuffman.length := length_placed aHuffman.length
  generalize placed aHuffman (UInt32.ofNat base <<< 17 + KHuffTerminate <<< 16) aHuffman.length = memory at hholds hlength ⊢
  have hcodes := length_tableLeaves_le aHuffman
  dsimp only
  by_cases hone : (tableLeaves aHuffman).length = 1
  · obtain ⟨leaf, hleaf⟩ := List.length_eq_one_iff.mp hone
    obtain ⟨word, hword, hterm⟩ := hholds 0 leaf le_rfl (by rw [hleaf]; rfl)
    rw [hone] at hword
    have hread : elementAt memory 0 = .ok word := elementAt_nat hword
    have hroom : 0 < memory.length := (List.getElem?_eq_some_iff.mp hword).1
    have hwrite := modifyAt_nat hroom fun _ => word >>> 16 ||| word >>> 16 <<< 16
    simp only [hone, if_true, hread, ok_bind]
    refine ⟨_, hwrite, hwrite, ⟨fun other hother => ?_, fun h => absurd h (by omega)⟩⟩
    obtain rfl : leaf = other := (List.cons.inj (hleaf.symm.trans hother)).1
    have hhalves := toNat_halves _ (toNat_upper_half word) (toNat_shiftRight_16_lt word)
    rw [UInt32.or_comm, toNat_shiftRight_16, hterm] at hhalves
    exact ⟨_, by rw [getElem?_modify_const _ hroom, if_pos rfl], hhalves.1, hhalves.2⟩
  · by_cases hmany : 1 < (tableLeaves aHuffman).length
    · simp only [hone, if_false, hmany, if_true]
      obtain ⟨t, ht⟩ := exists_tree KMaxCodeLength (d := 0) (byDepth_buckets KMaxCodeLength)
        (fun leaf hleaf => ⟨Nat.zero_le _, (mem_buckets.mp hleaf).1.2⟩) (hfull hmany)
      have hnode : ∀ s, t ≠ .leaf s := by
        rintro s rfl
        have hlen := congrArg List.length ht
        rw [CodeTree.leaves, List.length_singleton] at hlen
        exact hone hlen.symm
      have hdrop : (tableLeaves aHuffman).drop 0 = t.leaves 0 ++ [] := by
        rw [List.drop_zero, List.append_nil, ht]
        rfl
      have hlast : (((tableLeaves aHuffman).length - 1 : ℕ) : ℤ) = ((tableLeaves aHuffman).length : ℤ) - 1 := by omega
      obtain ⟨tree, hbuilt, hrun⟩ := HuffmanSubTree_spec levels_placed (byDepth_buckets _)
        (fun leaf hleaf => (mem_buckets.mp hleaf).1.2) (by omega) t (d := 0) (i := 0)
        (p := (tableLeaves aHuffman).length - 1) hnode hdrop (by omega) (by omega) hholds
      have hhead : (tableLeaves aHuffman).length - 1 + 1 - (t.leaves 0).length = 0 := by
        have hlength : (t.leaves 0).length = (tableLeaves aHuffman).length := congrArg List.length ht
        omega
      rw [hhead] at hbuilt
      rw [hlast, List.drop_zero, Nat.cast_zero, sub_zero] at hrun
      have hinPlace := hrun (fun now => now) (reads_id memory 0)
      have hcopy := hrun (fun _ => memory) (reads_copy memory 0)
      refine ⟨tree, by rw [hinPlace]; rfl, by rw [hcopy]; rfl, fun leaf hleaf => ?_, fun _ => ⟨t, ht, ?_⟩⟩
      · rw [hleaf] at hone
        exact absurd rfl hone
      · exact hbuilt.linked tree (fun x _ _ => rfl) 0 0 rfl
    · simp only [hone, if_false, hmany]
      refine ⟨memory, rfl, rfl, ⟨fun leaf hleaf => ?_, fun h => absurd h hmany⟩⟩
      rw [hleaf] at hone
      exact absurd rfl hone

/-! ### Symbols and their code words -/

theorem HuffmanL_single {base s : ℕ} {tree : Words} {m : ℕ} (h : TreeOf [(m, s)] base tree) (bit : Bool)
    (rest : List Bool) : HuffmanL tree (bit :: rest) = .ok (UInt32.ofNat s + UInt32.ofNat base, rest) := by
  obtain ⟨word, hword, hhigh, hlow⟩ := h.single _ rfl
  have hhalf : (if bit then word.toNat / 65536 else word.toNat % 65536) = term base s := by
    cases bit
    · exact hlow
    · exact hhigh
  have hloop := huffmanLoop_cons (a := 0) hword bit rest
  rw [HuffmanL, show 0 = 4 * 0 from rfl, hloop, hhalf, term]
  dsimp only
  rw [if_neg (by omega), ← UInt32.ofNat_add, show (2 * (s + base) + 1) / 2 = s + base by omega]

theorem HuffmanL_several {base : ℕ} {tree : Words} {L front back : List (ℕ × ℕ)} {leaf : ℕ × ℕ} (h : TreeOf L base tree)
    (hmax : ∀ other ∈ L, other.1 ≤ KMaxCodeLength) (hL : L = front ++ leaf :: back) (hmany : 1 < L.length)
    (rest : List Bool) :
    HuffmanL tree (codeBits KMaxCodeLength (space KMaxCodeLength front) 0 leaf.1 ++ rest) =
      .ok (UInt32.ofNat leaf.2 + UInt32.ofNat base, rest) := by
  obtain ⟨t, ht, hlinked⟩ := h.several hmany
  have hdecode := t.decode_codeBits KMaxCodeLength (d := 0) (ht.trans hL) (ht ▸ hmax) (Nat.dvd_zero _) rest
  rw [Nat.zero_add, Nat.sub_zero] at hdecode
  have hloop := huffmanLoop_decode t hlinked rfl hdecode
  rw [HuffmanL, ← UInt32.ofNat_add]
  exact hloop

theorem encodeLoop_nonneg {codes nextCode table : Words} (h : encodeLoop codes nextCode = .ok table) :
    ∀ word ∈ codes, word.toNat < 2 ^ 31 := by
  induction codes generalizing nextCode table with
  | nil => exact fun _ hword => absurd hword List.not_mem_nil
  | cons word codes ih =>
    rw [encodeLoop] at h
    have hword : 0 ≤ asTInt word ∧ ∃ nextCode table, encodeLoop codes nextCode = .ok table := by
      split at h
      · next h0 =>
        obtain ⟨table', htable, -⟩ := bind_eq_ok.mp h
        exact ⟨h0.ge, nextCode, table', htable⟩
      · obtain ⟨code, hcode, h⟩ := bind_eq_ok.mp h
        obtain ⟨nextCode', -, h⟩ := bind_eq_ok.mp h
        obtain ⟨table', htable, -⟩ := bind_eq_ok.mp h
        refine ⟨?_, nextCode', table', htable⟩
        unfold elementAt at hcode
        split at hcode
        · split at hcode
          · omega
          · simp at hcode
        · simp at hcode
    obtain ⟨hfirst, nextCode', table', hrest⟩ := hword
    intro other hother
    rcases List.mem_cons.mp hother with rfl | hmem
    · by_contra hlarge
      rw [asTInt_eq, if_neg hlarge] at hfirst
      have hlt := other.toNat_lt
      omega
    · exact ih hrest other hmem

theorem exists_encoding (hvalid : IsValid aHuffman = true) (hmax : ∀ word ∈ aHuffman, word.toNat ≤ KMaxCodeLength) :
    ∃ table, Encoding aHuffman = .ok table ∧ ∀ s len, aHuffman[s]? = some len → len ≠ 0 →
      table[s]? = some (codeEntry (2 * firstCode (lengths aHuffman) (len.toNat - 1) +
        ((lengths aHuffman).take s).count len.toNat) len) := by
  have hcounts := countLengths_spec (fun h => asTInt (h - 1)) hmax fun word hword => asTInt_pred (hmax word hword)
  obtain ⟨table, hrun, htable⟩ := encodeLoop_spec (lengths aHuffman) [] hmax
  have hcodes := nextCodes_spec (lengths aHuffman) 0 KMaxCodeLength
  rw [← List.range_eq_range', firstCode, show UInt32.ofNat 0 = 0 from rfl] at hcodes
  simp only [List.count_nil, Nat.add_zero] at hrun
  refine ⟨table, ?_, htable⟩
  rw [Encoding, if_neg (by simp [hvalid]), hcounts, ok_bind, hcodes, hrun]

theorem exists_codes (hvalid : IsValid aHuffman = true) (hnonneg : ∀ word ∈ aHuffman, word.toNat < 2 ^ 31) {base : ℕ}
    (hcodes : aHuffman.length ≤ 285) (hbase : base ≤ 512) :
    ∃ tree, Decoding aHuffman (UInt32.ofNat base) = .ok tree ∧ DecodingApart aHuffman (UInt32.ofNat base) = .ok tree ∧
      TreeOf (tableLeaves aHuffman) base tree := by
  obtain ⟨hmax, -, hfull⟩ := isValid_spec hvalid hnonneg
  apply exists_decoding hvalid hmax (by omega) (by omega)
  intro hmany
  rcases hfull with hfull | hsum
  · rw [tableLeaves, space_buckets _ le_rfl, hfull, Nat.sub_self, Nat.pow_zero, Nat.mul_one]
  · have hle := below_le_sum (lengths aHuffman) KMaxCodeLength
    rw [length_tableLeaves] at hmany
    omega

/-- A single code has length `1`. -/
theorem length_of_single (hvalid : IsValid aHuffman = true) (hnonneg : ∀ word ∈ aHuffman, word.toNat < 2 ^ 31)
    {m s : ℕ} (hsingle : tableLeaves aHuffman = [(m, s)]) : m = 1 := by
  obtain ⟨-, -, hfull⟩ := isValid_spec hvalid hnonneg
  have hmem : (m, s) ∈ buckets (lengths aHuffman) KMaxCodeLength := by
    rw [← tableLeaves, hsingle]
    exact List.mem_singleton_self _
  obtain ⟨⟨hpos, hle⟩, hlen⟩ := mem_buckets.mp hmem
  rcases hfull with hfull | hsum
  · have hspace := space_buckets (lengths aHuffman) (le_refl KMaxCodeLength)
    rw [← tableLeaves, hsingle, hfull, space_cons, space_nil, Nat.sub_self, Nat.pow_zero, Nat.mul_one, Nat.add_zero] at hspace
    have hexp := Nat.pow_right_injective le_rfl hspace
    omega
  · have hm := List.le_sum_of_mem (List.mem_of_getElem? hlen)
    omega

/-- The code that a symbol is written with leads to its leaf. -/
theorem HuffmanL_codeWord (hvalid : IsValid aHuffman = true) (hnonneg : ∀ word ∈ aHuffman, word.toNat < 2 ^ 31)
    {base s : ℕ} {tree : Words} {len : UInt32} (htree : TreeOf (tableLeaves aHuffman) base tree)
    (hs : aHuffman[s]? = some len) (hpos : 0 < len.toNat) {code : ℕ}
    (hcode : code = 2 * firstCode (lengths aHuffman) (len.toNat - 1) + ((lengths aHuffman).take s).count len.toNat) :
    (codeWord (codeEntry code len)).length = len.toNat ∧ ∀ rest, HuffmanL tree (codeWord (codeEntry code len) ++ rest) =
      .ok (UInt32.ofNat s + UInt32.ofNat base, rest) := by
  obtain ⟨hmax, htaken, -⟩ := isValid_spec hvalid hnonneg
  have hle := hmax len (List.mem_of_getElem? hs)
  obtain ⟨front, back, hleaves, -, hspace⟩ := exists_tableLeaf hs hpos hle
  rw [← hcode] at hspace
  have hfits : code < 2 ^ len.toNat := by
    have htotal := space_buckets (lengths aHuffman) (le_refl KMaxCodeLength)
    rw [← tableLeaves, hleaves, space_append, space_cons, hspace, Nat.sub_self, Nat.pow_zero, Nat.mul_one] at htotal
    dsimp only at htotal
    have hroom := Nat.two_pow_pos (KMaxCodeLength - len.toNat)
    have hlt : code * 2 ^ (KMaxCodeLength - len.toNat) < 2 ^ len.toNat * 2 ^ (KMaxCodeLength - len.toNat) := by
      rw [← Nat.pow_add, Nat.add_sub_cancel' hle]
      omega
    exact lt_of_mul_lt_mul_right hlt (Nat.zero_le _)
  rw [codeWord_codeEntry hle hfits, ← hspace]
  refine ⟨by rw [codeBits, List.length_map, List.length_range], fun rest => ?_⟩
  by_cases hmany : 1 < (tableLeaves aHuffman).length
  · exact HuffmanL_several htree (fun other hother => (mem_buckets.mp hother).1.2) hleaves hmany rest
  · obtain ⟨rfl, rfl⟩ : front = [] ∧ back = [] := by
      rw [hleaves, List.length_append, List.length_cons] at hmany
      exact ⟨List.length_eq_zero_iff.mp (by omega), List.length_eq_zero_iff.mp (by omega)⟩
    rw [hleaves] at htree
    rw [length_of_single hvalid hnonneg hleaves]
    exact HuffmanL_single htree _ rest

theorem tableLeaves_single (hmax : ∀ word ∈ aHuffman, word.toNat ≤ KMaxCodeLength) {s : ℕ} {len : UInt32}
    (hs : aHuffman[s]? = some len) (hpos : 0 < len.toNat)
    (hsingle : ∀ s' len', aHuffman[s']? = some len' → len' ≠ 0 → s' = s) : tableLeaves aHuffman = [(len.toNat, s)] := by
  obtain ⟨front, back, hleaves, -, -⟩ := exists_tableLeaf hs hpos (hmax len (List.mem_of_getElem? hs))
  have hall : ∀ leaf ∈ tableLeaves aHuffman, leaf = (len.toNat, s) := by
    intro leaf hleaf
    obtain ⟨⟨hleafPos, -⟩, hlen⟩ := mem_buckets.mp hleaf
    rw [lengths, List.getElem?_map] at hlen
    rcases hword : aHuffman[leaf.2]? with _ | word
    · rw [hword] at hlen
      simp at hlen
    · rw [hword] at hlen
      have hword' : word.toNat = leaf.1 := Option.some.inj hlen
      have hnonzero : word ≠ 0 := by
        rintro rfl
        rw [UInt32.toNat_zero] at hword'
        omega
      have hsame := hsingle leaf.2 word hword hnonzero
      rw [hsame, hs] at hword
      exact Prod.ext (by rw [← hword', Option.some.inj hword]) hsame
  have hnodup : (tableLeaves aHuffman).Nodup := nodup_buckets _
  rw [hleaves] at hall hnodup ⊢
  have hsplit := List.nodup_middle.mp hnodup
  rw [List.nodup_cons, List.mem_append, not_or] at hsplit
  have hfront : front = [] := List.eq_nil_iff_forall_not_mem.mpr fun leaf hleaf =>
    hsplit.1.1 (hall leaf (List.mem_append_left _ hleaf) ▸ hleaf)
  have hback : back = [] := List.eq_nil_iff_forall_not_mem.mpr fun leaf hleaf =>
    hsplit.1.2 (hall leaf (List.mem_append_right _ (List.mem_cons_of_mem _ hleaf)) ▸ hleaf)
  rw [hfront, hback, List.nil_append]

end

/-- For a table that is accepted, what is encoded is decoded exactly if no length is `2 ^ 31` or more: such a length
is not seen by the test. -/
theorem decodes_iff (aHuffman : Words) (aSymbolBase : UInt32) (hvalid : IsValid aHuffman = true)
    (hcodes : aHuffman.length ≤ 285) (hbase : aSymbolBase = 0 ∨ aSymbolBase = 0x200) :
    Decodes aHuffman aSymbolBase ↔ ∀ len ∈ aHuffman, len.toNat < 2 ^ 31 := by
  constructor
  · intro h len hlen
    obtain ⟨s, hs⟩ := List.mem_iff_getElem?.mp hlen
    by_contra hlarge
    obtain ⟨table, -, -, htable, -⟩ := h.symbols s len hs (by rintro rfl; exact hlarge (by decide))
    rw [Encoding, if_neg (by simp [hvalid])] at htable
    obtain ⟨counts, -, hloop⟩ := bind_eq_ok.mp htable
    exact hlarge (encodeLoop_nonneg hloop len hlen)
  · intro hnonneg
    obtain ⟨base, hb, rfl⟩ : ∃ base, base ≤ 512 ∧ aSymbolBase = UInt32.ofNat base := by
      rcases hbase with rfl | rfl
      · exact ⟨0, by decide, rfl⟩
      · exact ⟨512, by decide, rfl⟩
    obtain ⟨hmax, -, -⟩ := isValid_spec hvalid hnonneg
    obtain ⟨tree, hdecoding, hapart, htree⟩ := exists_codes hvalid hnonneg hcodes hb
    obtain ⟨table, hencoding, htable⟩ := exists_encoding hvalid hmax
    have hpositive : ∀ {len : UInt32}, len ≠ 0 → 0 < len.toNat := fun hlen =>
      Nat.pos_of_ne_zero fun h0 => hlen (UInt32.toNat_inj.mp h0)
    constructor
    · intro s len hs hlen
      obtain ⟨hlength, hdecode⟩ := HuffmanL_codeWord hvalid hnonneg htree hs (hpositive hlen) rfl
      exact ⟨table, tree, _, hencoding, hdecoding, htable s len hs hlen, hlength, hdecode⟩
    · rw [hdecoding, hapart]
    · intro s len hs hlen hsingle
      rw [tableLeaves_single hmax hs (hpositive hlen) hsingle] at htree
      exact ⟨tree, hdecoding, HuffmanL_single htree⟩

theorem decodes_iff_sample :
    Decodes [2, 0, 1, 2] 0x200 ↔ ∀ len ∈ ([2, 0, 1, 2] : Words), len.toNat < 2 ^ 31 :=
  decodes_iff [2, 0, 1, 2] 0x200 (by decide) (by decide) (.inr rfl)

/-- A length that is negative as a `TInt` passes the test, and has no code. -/
theorem decodes_fails : ¬ ∀ (aHuffman : Words) (aSymbolBase : UInt32), IsValid aHuffman = true → aHuffman.length ≤ 285 →
    aSymbolBase = 0 ∨ aSymbolBase = 0x200 → Decodes aHuffman aSymbolBase := by
  intro h
  obtain ⟨table, -, -, htable, -⟩ := (h [1, 1, 0x80000001] 0 (by decide) (by decide) (.inl rfl)).symbols 2 0x80000001 rfl
    (by decide)
  revert htable
  rw [show Encoding [1, 1, 0x80000001] = .error .undefined by decide]
  rintro ⟨⟩

end GnuPoc.Deflate
