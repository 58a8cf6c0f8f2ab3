import GnuPoc.Deflate.Lengths

/-!
# GnuPoc.Deflate.Leaves — the places of the leaves (`decode.cpp`)

The leaf of a symbol is put into the upper half of the word at its place, which leaves the length in the lower half of
that word for the symbol of the same number.
-/

namespace GnuPoc.Deflate

open GnuPoc.Lib

section
variable (aHuffman : Words) (aSymbolBase : UInt32)

/-- The leaves of a table, in the order of their code words. -/
def tableLeaves : List (ℕ × ℕ) := buckets (lengths aHuffman) KMaxCodeLength

/-- The upper half of the word at `x` after the turns of the codes before `k`. -/
def upperHalf (k x : ℕ) : UInt32 :=
  match (tableLeaves aHuffman).reverse[x]? with
  | some leaf => if leaf.2 < k then UInt32.ofNat leaf.2 <<< 17 + aSymbolBase else 0
  | none => 0

/-- The memory after the turns of the codes before `k`. -/
def placed (k : ℕ) : Words := aHuffman.mapIdx fun x word => word ||| upperHalf aHuffman aSymbolBase k x

/-- Where the leaves of each length end after these turns. -/
def levelsAt (k : ℕ) : List ℤ :=
  (List.range KMaxCodeLength).map fun m =>
    ((tableLeaves aHuffman).length : ℤ) - below (lengths aHuffman) m - ((lengths aHuffman).take k).count (m + 1)

variable {aHuffman aSymbolBase}

theorem length_placed (k : ℕ) : (placed aHuffman aSymbolBase k).length = aHuffman.length := List.length_mapIdx

variable {word : UInt32}

theorem getElem?_placed (k : ℕ) {x : ℕ} (h : aHuffman[x]? = some word) :
    (placed aHuffman aSymbolBase k)[x]? = some (word ||| upperHalf aHuffman aSymbolBase k x) := by
  rw [placed, List.getElem?_mapIdx, h]
  rfl

theorem length_tableLeaves : (tableLeaves aHuffman).length = below (lengths aHuffman) KMaxCodeLength := length_buckets _

theorem length_tableLeaves_le (aHuffman : Words) : (tableLeaves aHuffman).length ≤ aHuffman.length := by
  rw [length_tableLeaves]
  exact (below_le_length KMaxCodeLength).trans (List.length_map _).le

theorem placed_zero : placed aHuffman aSymbolBase 0 = aHuffman := by
  apply List.ext_getElem?
  intro x
  rcases h : aHuffman[x]? with _ | word
  · rw [placed, List.getElem?_mapIdx, h]
    rfl
  · have hzero : upperHalf aHuffman aSymbolBase 0 x = 0 := by
      unfold upperHalf
      split
      · rfl
      · rfl
    rw [getElem?_placed 0 h, hzero, UInt32.or_zero]

theorem upperHalf_succ {k x : ℕ} (h : ∀ leaf, (tableLeaves aHuffman).reverse[x]? = some leaf → leaf.2 ≠ k) :
    upperHalf aHuffman aSymbolBase (k + 1) x = upperHalf aHuffman aSymbolBase k x := by
  unfold upperHalf
  rcases hleaf : (tableLeaves aHuffman).reverse[x]? with _ | leaf
  · rfl
  · have hne := h leaf hleaf
    have hiff : leaf.2 < k + 1 ↔ leaf.2 < k := by omega
    simp only [hiff]

theorem length_of_leaf {x : ℕ} {leaf : ℕ × ℕ} (h : (tableLeaves aHuffman).reverse[x]? = some leaf) :
    1 ≤ leaf.1 ∧ (lengths aHuffman)[leaf.2]? = some leaf.1 := by
  have hmem := List.mem_reverse.mp (List.mem_of_getElem? h)
  have hleaf := mem_buckets.mp hmem
  exact ⟨hleaf.1.1, hleaf.2⟩

/-- What is read as the length of the next code. -/
def ReadsLengths (lengthsOf : Words → Words) (aHuffman : Words) (aSymbolBase : UInt32) : Prop :=
  ∀ k word, aHuffman[k]? = some word → ∃ now, (lengthsOf (placed aHuffman aSymbolBase k))[k]? = some now ∧
    now.toNat % 256 = word.toNat

theorem lengths_take_succ {k : ℕ} (h : aHuffman[k]? = some word) :
    (lengths aHuffman).take (k + 1) = (lengths aHuffman).take k ++ [word.toNat] := by
  have hlen : (lengths aHuffman)[k]? = some word.toNat := by
    rw [lengths, List.getElem?_map, h]
    rfl
  rw [List.take_add_one, hlen]
  rfl

theorem placed_of_zero (aSymbolBase : UInt32) {k : ℕ} (h : aHuffman[k]? = some word) (h0 : word.toNat = 0) :
    levelsAt aHuffman (k + 1) = levelsAt aHuffman k ∧
      placed aHuffman aSymbolBase (k + 1) = placed aHuffman aSymbolBase k := by
  constructor
  · rw [levelsAt, levelsAt, lengths_take_succ h, h0]
    simp
  · apply List.ext_getElem?
    intro x
    rcases hx : aHuffman[x]? with _ | other
    · rw [placed, placed, List.getElem?_mapIdx, List.getElem?_mapIdx, hx]
      rfl
    · rw [getElem?_placed _ hx, getElem?_placed _ hx, upperHalf_succ]
      rintro leaf hleaf rfl
      obtain ⟨hpos, hlen⟩ := length_of_leaf hleaf
      rw [lengths, List.getElem?_map, h] at hlen
      have heq := Option.some.inj hlen
      omega

theorem exists_tableLeaf {k : ℕ} (h : aHuffman[k]? = some word) (hpos : 0 < word.toNat)
    (hle : word.toNat ≤ KMaxCodeLength) :
    ∃ front back, tableLeaves aHuffman = front ++ (word.toNat, k) :: back ∧
      front.length = below (lengths aHuffman) (word.toNat - 1) + ((lengths aHuffman).take k).count word.toNat ∧
      space KMaxCodeLength front = (2 * firstCode (lengths aHuffman) (word.toNat - 1) +
        ((lengths aHuffman).take k).count word.toNat) * 2 ^ (KMaxCodeLength - word.toNat) := by
  have hlt : k < aHuffman.length := (List.getElem?_eq_some_iff.mp h).1
  have hsplit : lengths aHuffman = (lengths aHuffman).take k ++ word.toNat :: (lengths aHuffman).drop (k + 1) := by
    have happend := List.take_append_drop (k + 1) (lengths aHuffman)
    rw [lengths_take_succ h, List.append_assoc] at happend
    exact happend.symm
  have hk : ((lengths aHuffman).take k).length = k := by
    rw [List.length_take, lengths, List.length_map]
    omega
  have hplace := exists_place ((lengths aHuffman).take k) ((lengths aHuffman).drop (k + 1)) (D := KMaxCodeLength) hpos hle
  rwa [← hsplit, hk] at hplace

/-- The place of the leaf of a code: behind it in memory are the leaves before it. -/
theorem exists_slot {k : ℕ} (h : aHuffman[k]? = some word) (hpos : 0 < word.toNat)
    (hle : word.toNat ≤ KMaxCodeLength) :
    ∃ slot : ℕ, (tableLeaves aHuffman).reverse[slot]? = some (word.toNat, k) ∧
      (slot : ℤ) = (tableLeaves aHuffman).length - below (lengths aHuffman) (word.toNat - 1) -
        ((lengths aHuffman).take k).count word.toNat - 1 := by
  obtain ⟨front, back, hleaves, hfront, -⟩ := exists_tableLeaf h hpos hle
  refine ⟨back.length, ?_, ?_⟩
  · rw [hleaves, List.reverse_append, List.reverse_cons, List.append_assoc,
      List.getElem?_append_right (by rw [List.length_reverse]), List.length_reverse, Nat.sub_self]
    rfl
  · rw [hleaves, List.length_append, List.length_cons, hfront]
    omega

theorem placed_of_pos {k slot : ℕ} (h : aHuffman[k]? = some word)
    (hslot : (tableLeaves aHuffman).reverse[slot]? = some (word.toNat, k)) :
    (placed aHuffman aSymbolBase k).modify slot (· ||| (UInt32.ofNat k <<< 17 + aSymbolBase)) =
      placed aHuffman aSymbolBase (k + 1) := by
  apply List.ext_getElem?
  intro x
  rw [List.getElem?_modify]
  rcases hx : aHuffman[x]? with _ | other
  · rw [placed, placed, List.getElem?_mapIdx, List.getElem?_mapIdx, hx]
    rfl
  · rw [getElem?_placed _ hx, getElem?_placed _ hx]
    by_cases hsame : slot = x
    · subst hsame
      simp [upperHalf, hslot]
    · rw [upperHalf_succ]
      · simp [hsame]
      · rintro leaf hleaf rfl
        have hlen := (length_of_leaf hleaf).2
        rw [lengths, List.getElem?_map, h] at hlen
        have hleaf' : leaf = (word.toNat, leaf.2) := Prod.ext (Option.some.inj hlen).symm rfl
        rw [hleaf', ← hslot] at hleaf
        have hlt := (List.getElem?_eq_some_iff.mp (hleaf.trans hslot)).1
        exact hsame ((List.getElem?_inj hlt (List.nodup_reverse.mpr (nodup_buckets _))).mp hleaf).symm

/-- Each symbol is put behind the symbols of its length. -/
theorem placeLeaf_spec {lengthsOf : Words → Words} (hmax : ∀ word ∈ aHuffman, word.toNat ≤ KMaxCodeLength)
    (hreads : ReadsLengths lengthsOf aHuffman aSymbolBase) {k : ℕ} (hk : k < aHuffman.length) :
    placeLeaf lengthsOf aSymbolBase (levelsAt aHuffman k, placed aHuffman aSymbolBase k) k =
      .ok (levelsAt aHuffman (k + 1), placed aHuffman aSymbolBase (k + 1)) := by
  obtain ⟨word, hword⟩ : ∃ word, aHuffman[k]? = some word := ⟨_, List.getElem?_eq_getElem hk⟩
  obtain ⟨now, hnow, hlow⟩ := hreads k word hword
  have hle := hmax word (List.mem_of_getElem? hword)
  rw [placeLeaf]
  simp only [elementAt_nat hnow, ok_bind, hlow]
  rcases Nat.eq_zero_or_pos word.toNat with h0 | hpos
  · obtain ⟨hlevels, hplaced⟩ := placed_of_zero aSymbolBase hword h0
    rw [if_pos h0, hlevels, hplaced]
    rfl
  · obtain ⟨slot, hslot, hindex⟩ := exists_slot hword hpos hle
    have hm : (word.toNat : ℤ) - 1 = ((word.toNat - 1 : ℕ) : ℤ) := by omega
    have hfits : word.toNat - 1 < (levelsAt aHuffman k).length := by
      rw [levelsAt, List.length_map, List.length_range]
      omega
    have hsucc : word.toNat - 1 + 1 = word.toNat := by omega
    have hmodify : (levelsAt aHuffman k).modify (word.toNat - 1) (· - 1) = levelsAt aHuffman (k + 1) := by
      rw [levelsAt, levelsAt, modify_map_range, lengths_take_succ hword]
      apply List.map_congr_left
      intro m _
      rw [List.count_append]
      split
      · next hm =>
        rw [hm, hsucc]
        simp
        omega
      · next hm =>
        have hne : word.toNat ≠ m + 1 := by omega
        simp [hne]
    have hleaf : elementAt (levelsAt aHuffman (k + 1)) ((word.toNat - 1 : ℕ) : ℤ) = .ok (slot : ℤ) := by
      rw [← hmodify, levelsAt, modify_map_range]
      refine elementAt_nat ?_
      rw [getElem?_map_range _ (by omega), if_pos rfl, hsucc, hindex]
    have hroom : slot < (placed aHuffman aSymbolBase k).length := by
      have hlt := (List.getElem?_eq_some_iff.mp hslot).1
      have hcodes := length_tableLeaves_le aHuffman
      rw [List.length_reverse] at hlt
      rw [length_placed]
      omega
    rw [if_neg (by omega)]
    simp only [hm, modifyAt_nat hfits, ok_bind, hmodify, hleaf, modifyAt_nat hroom, placed_of_pos hword hslot]
    rfl

theorem placeLeaves_spec {lengthsOf : Words → Words} (hmax : ∀ word ∈ aHuffman, word.toNat ≤ KMaxCodeLength)
    (hreads : ReadsLengths lengthsOf aHuffman aSymbolBase) {k : ℕ} (hk : k ≤ aHuffman.length) :
    (List.range k).foldlM (placeLeaf lengthsOf aSymbolBase) (levelsAt aHuffman 0, aHuffman) =
      .ok (levelsAt aHuffman k, placed aHuffman aSymbolBase k) := by
  induction k with
  | zero =>
    rw [placed_zero]
    rfl
  | succ k ih =>
    rw [List.range_succ, List.foldlM_append, ih (by omega), ok_bind, List.foldlM_cons,
      placeLeaf_spec hmax hreads (by omega), ok_bind]
    rfl

/-! ### What the memory holds -/

theorem toNat_leafWord {s base : ℕ} (h : s + base < 2 ^ 15) :
    (UInt32.ofNat s <<< 17 + (UInt32.ofNat base <<< 17 + KHuffTerminate <<< 16)).toNat = term base s * 65536 := by
  have hshift : ∀ n : ℕ, n < 2 ^ 15 → (UInt32.ofNat n <<< 17).toNat = n * 131072 := by
    intro n hn
    rw [UInt32.toNat_shiftLeft, UInt32.toNat_ofNat_of_lt' (lt_trans hn (by decide)),
      show (17 : UInt32).toNat % 32 = 17 from rfl, Nat.shiftLeft_eq]
    omega
  have hflag : (KHuffTerminate <<< 16).toNat = 65536 := rfl
  rw [UInt32.toNat_add, UInt32.toNat_add, hshift s (by omega), hshift base (by omega), hflag, term]
  omega

/-- The halves of a word: what has been put there, and the length of the code of this number. -/
theorem word_halves {base : ℕ} (hsmall : aHuffman.length + base ≤ 2 ^ 15) (k x : ℕ)
    (hle : word.toNat ≤ KMaxCodeLength) :
    (word ||| upperHalf aHuffman (UInt32.ofNat base <<< 17 + KHuffTerminate <<< 16) k x).toNat % 65536 = word.toNat ∧
      ∀ leaf, (tableLeaves aHuffman).reverse[x]? = some leaf → leaf.2 < k →
        (word ||| upperHalf aHuffman (UInt32.ofNat base <<< 17 + KHuffTerminate <<< 16) k x).toNat / 65536 =
          term base leaf.2 := by
  have hlow : word.toNat < 65536 := lt_of_le_of_lt hle (by decide)
  have hupper : ∃ high, (upperHalf aHuffman (UInt32.ofNat base <<< 17 + KHuffTerminate <<< 16) k x).toNat = high * 65536 ∧
      ∀ leaf, (tableLeaves aHuffman).reverse[x]? = some leaf → leaf.2 < k → high = term base leaf.2 := by
    unfold upperHalf
    rcases hleaf : (tableLeaves aHuffman).reverse[x]? with _ | leaf
    · exact ⟨0, rfl, fun leaf h => by simp at h⟩
    · dsimp only
      split
      · have hlt := (List.getElem?_eq_some_iff.mp (length_of_leaf hleaf).2).1
        rw [lengths, List.length_map] at hlt
        refine ⟨_, toNat_leafWord (by omega), fun other hother _ => ?_⟩
        rw [Option.some.inj hother]
      · next hnot =>
        refine ⟨0, rfl, fun other hother hlt => ?_⟩
        rw [← Option.some.inj hother] at hlt
        exact absurd hlt hnot
  obtain ⟨high, hhigh, hterm⟩ := hupper
  have hhalves := toNat_halves _ hhigh hlow
  rw [UInt32.or_comm]
  refine ⟨hhalves.2, fun leaf hleaf hk => ?_⟩
  rw [hhalves.1, hterm leaf hleaf hk]

theorem readsLengths_id {base : ℕ} (hmax : ∀ word ∈ aHuffman, word.toNat ≤ KMaxCodeLength)
    (hsmall : aHuffman.length + base ≤ 2 ^ 15) :
    ReadsLengths id aHuffman (UInt32.ofNat base <<< 17 + KHuffTerminate <<< 16) := by
  intro k word hword
  have hle := hmax word (List.mem_of_getElem? hword)
  have hle' : word.toNat ≤ 27 := hle
  refine ⟨_, getElem?_placed k hword, ?_⟩
  have hlow := (word_halves hsmall k k hle).1
  omega

theorem readsLengths_copy (hmax : ∀ word ∈ aHuffman, word.toNat ≤ KMaxCodeLength) :
    ReadsLengths (fun _ => aHuffman) aHuffman aSymbolBase := by
  intro k word hword
  have hle : word.toNat ≤ 27 := hmax word (List.mem_of_getElem? hword)
  exact ⟨word, hword, by omega⟩

theorem holds_placed {base : ℕ} (hmax : ∀ word ∈ aHuffman, word.toNat ≤ KMaxCodeLength)
    (hsmall : aHuffman.length + base ≤ 2 ^ 15) :
    Holds (tableLeaves aHuffman) base
      (placed aHuffman (UInt32.ofNat base <<< 17 + KHuffTerminate <<< 16) aHuffman.length) 0 := by
  intro j leaf _ hleaf
  have hj := (List.getElem?_eq_some_iff.mp hleaf).1
  have hcodes := length_tableLeaves_le aHuffman
  obtain ⟨word, hword⟩ : ∃ word, aHuffman[(tableLeaves aHuffman).length - 1 - j]? = some word :=
    ⟨_, List.getElem?_eq_getElem (by omega)⟩
  have hreverse : (tableLeaves aHuffman).reverse[(tableLeaves aHuffman).length - 1 - j]? = some leaf := by
    rw [List.getElem?_reverse (by omega), ← hleaf]
    congr 1
    omega
  have hlt := (List.getElem?_eq_some_iff.mp (length_of_leaf hreverse).2).1
  rw [lengths, List.length_map] at hlt
  refine ⟨_, getElem?_placed _ hword, ?_⟩
  exact (word_halves hsmall _ _ (hmax word (List.mem_of_getElem? hword))).2 leaf hreverse hlt

theorem levels_placed : Levels (tableLeaves aHuffman) (levelsAt aHuffman aHuffman.length) where
  length := by rw [levelsAt, List.length_map, List.length_range]
  le_iff := by
    intro k l hl i leaf hleaf
    have hk : k < KMaxCodeLength := by
      have hlt := (List.getElem?_eq_some_iff.mp hl).1
      rwa [levelsAt, List.length_map, List.length_range] at hlt
    have hi := (List.getElem?_eq_some_iff.mp hleaf).1
    rw [levelsAt, getElem?_map_range _ hk, List.take_of_length_le (by rw [lengths, List.length_map])] at hl
    have hbelow := lt_below_iff (k := k + 1) (by omega) hleaf
    rw [below] at hbelow
    rw [← hbelow, ← Option.some.inj hl]
    omega

end

end GnuPoc.Deflate
