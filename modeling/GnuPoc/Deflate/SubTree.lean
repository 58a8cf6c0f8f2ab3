import GnuPoc.Deflate.Huffman
import GnuPoc.Lib.CodeTree
import Mathlib.Data.Nat.Bitwise

/-!
# GnuPoc.Deflate.SubTree — the decoding tree in memory (`decode.cpp`)

The leaves stand at the lower end of the memory, the next one to be read at its upper end, and the tree grows down from
there.  A subtree that is finished has one word less than it has taken leaves, so that a new word never reaches a leaf
that has not been read.
-/

namespace GnuPoc.Deflate

open GnuPoc.Lib

/-! ### Decoding -/

/-- The half of a word that stands for a leaf. -/
def term (base s : ℕ) : ℕ := 2 * (s + base) + 1

/-- A half of the word at `a` leads to a tree: it is the symbol of a leaf, or the distance to the word of a node. -/
def Linked (tree : Words) (base : ℕ) : ℕ → ℕ → CodeTree ℕ → Prop
  | _, half, .leaf s => half = term base s
  | a, half, .node zero one => ∃ off word, half = 4 * off ∧ tree[a + off]? = some word ∧
      Linked tree base (a + off) (word.toNat % 65536) zero ∧ Linked tree base (a + off) (word.toNat / 65536) one

theorem flag_eq_zero (huff : UInt32) : huff &&& 0x10000 = 0 ↔ huff.toNat / 65536 % 2 = 0 := by
  rw [← UInt32.toNat_inj, UInt32.toNat_and]
  have hflag : (0x10000 : UInt32).toNat = 2 ^ 16 := rfl
  rw [hflag, Nat.and_two_pow, Nat.testBit_eq_decide_div_mod_eq]
  rcases Nat.mod_two_eq_zero_or_one (huff.toNat / 65536) with h | h
  · simp [h]
  · simp [h]

theorem toNat_shiftRight_16 (huff : UInt32) : (huff >>> 16).toNat = huff.toNat / 65536 := by
  rw [UInt32.toNat_shiftRight, Nat.shiftRight_eq_div_pow]
  rfl

theorem shiftRight_17 (huff : UInt32) : huff >>> 17 = UInt32.ofNat (huff.toNat / 65536 / 2) := by
  rw [← UInt32.toNat_inj, UInt32.toNat_shiftRight, Nat.shiftRight_eq_div_pow, Nat.div_div_eq_div_mul,
    UInt32.toNat_ofNat_of_lt' (lt_of_le_of_lt (Nat.div_le_self _ _) huff.toNat_lt)]
  rfl

theorem chosen_half (word : UInt32) (bit : Bool) : (if bit then word else word <<< 16).toNat / 65536 =
    if bit then word.toNat / 65536 else word.toNat % 65536 := by
  cases bit
  · have hlt := word.toNat_lt
    simp only [Bool.false_eq_true, if_false, UInt32.toNat_shiftLeft]
    rw [show (16 : UInt32).toNat % 32 = 16 from rfl, Nat.shiftLeft_eq]
    omega
  · rfl

theorem huffmanLoop_cons {tree : Words} {word : UInt32} {a : ℕ} (h : tree[a]? = some word) (bit : Bool) (bits : List Bool) :
    huffmanLoop tree (bit :: bits) (4 * a) =
      let half := if bit then word.toNat / 65536 else word.toNat % 65536
      if half % 2 = 0 then huffmanLoop tree bits (4 * a + half) else .ok (UInt32.ofNat (half / 2), bits) := by
  have hindex : 4 * a / 4 = a := by omega
  have haligned : 4 * a % 4 = 0 := by omega
  rw [huffmanLoop]
  simp only [hindex, h, haligned, ne_eq, not_true_eq_false, if_false, flag_eq_zero, chosen_half, toNat_shiftRight_16,
    shiftRight_17]

/-- Walking the words of a tree is decoding by the tree. -/
theorem huffmanLoop_decode {tree : Words} {base : ℕ} (t : CodeTree ℕ) {a half s : ℕ} {bits rest : List Bool}
    (h : Linked tree base a half t) (hnode : half % 2 = 0) (hdecode : t.decode bits = some (s, rest)) :
    huffmanLoop tree bits (4 * a + half) = .ok (UInt32.ofNat (s + base), rest) := by
  induction t generalizing a half bits with
  | leaf s' =>
    rw [Linked, term] at h
    omega
  | node zero one ihZero ihOne =>
    obtain ⟨off, word, rfl, hword, hzero, hone⟩ := h
    rcases bits with _ | ⟨bit, bits⟩
    · simp [CodeTree.decode] at hdecode
    · rw [CodeTree.decode_node_cons] at hdecode
      rw [← Nat.mul_add, huffmanLoop_cons hword]
      have hside : ∀ (t : CodeTree ℕ) {half : ℕ}, Linked tree base (a + off) half t → t.decode bits = some (s, rest) →
          (half % 2 = 0 → huffmanLoop tree bits (4 * (a + off) + half) = .ok (UInt32.ofNat (s + base), rest)) →
          (if half % 2 = 0 then huffmanLoop tree bits (4 * (a + off) + half) else .ok (UInt32.ofNat (half / 2), bits)) =
            .ok (UInt32.ofNat (s + base), rest) := by
        intro t half hlinked hdecode hloop
        by_cases heven : half % 2 = 0
        · rw [if_pos heven, hloop heven]
        · rw [if_neg heven]
          cases t with
          | leaf s' =>
            obtain ⟨rfl, rfl⟩ : s' = s ∧ bits = rest := by simpa [CodeTree.decode] using hdecode
            rw [Linked, term] at hlinked
            rw [show half / 2 = s' + base by omega]
          | node zero one =>
            obtain ⟨off, _, rfl, _⟩ := hlinked
            omega
      cases bit
      · exact hside zero hzero hdecode fun heven => ihZero hzero heven hdecode
      · exact hside one hone hdecode fun heven => ihOne hone heven hdecode

/-! ### Building -/

section
variable (L : List (ℕ × ℕ)) (base : ℕ)

/-- Where the leaves of each length end: those of at most this length stand from there on. -/
structure Levels (level : List ℤ) : Prop where
  length : level.length = KMaxCodeLength
  le_iff : ∀ k l, level[k]? = some l → ∀ (i : ℕ) leaf, L[i]? = some leaf → (l ≤ (L.length : ℤ) - 1 - i ↔ leaf.1 ≤ k + 1)

/-- The leaves from `i` on are in memory, from the top down. -/
def Holds (tree : Words) (i : ℕ) : Prop :=
  ∀ j leaf, i ≤ j → L[j]? = some leaf → ∃ word : UInt32, tree[L.length - 1 - j]? = some word ∧
    word.toNat / 65536 = term base leaf.2

/-- What is read in `leaves` is what `tree` holds of the leaves from `i` on, whatever has been written above them. -/
def Reads (leaves : Words → Words) (tree : Words) (i : ℕ) : Prop :=
  ∀ tree' j, i ≤ j → (∀ x, x + j < L.length → tree'[x]? = tree[x]?) →
    ∀ x, x + j < L.length → (leaves tree')[x]? = tree[x]?

variable {L base}

theorem Holds.mono {tree tree' : Words} {i j : ℕ} (h : Holds L base tree i) (hij : i ≤ j)
    (hsame : ∀ x, x + j < L.length → tree'[x]? = tree[x]?) : Holds L base tree' j := by
  intro k leaf hk hleaf
  obtain ⟨word, hword, hterm⟩ := h k leaf (hij.trans hk) hleaf
  have hlt : k < L.length := (List.getElem?_eq_some_iff.mp hleaf).1
  exact ⟨word, by rw [hsame _ (by omega), hword], hterm⟩

theorem Reads.mono {leaves : Words → Words} {tree tree' : Words} {i j : ℕ} (h : Reads L leaves tree i) (hij : i ≤ j)
    (hsame : ∀ x, x + j < L.length → tree'[x]? = tree[x]?) : Reads L leaves tree' j := by
  intro tree'' k hk hagree x hx
  rw [h tree'' k (hij.trans hk) (fun y hy => (hagree y hy).trans (hsame y (by omega))) x hx, hsame x (by omega)]

theorem reads_id (tree : Words) (i : ℕ) : Reads L id tree i := fun _ _ _ h => h

theorem reads_copy (tree : Words) (i : ℕ) : Reads L (fun _ => tree) tree i := fun _ _ _ _ _ _ => rfl

theorem Reads.elementAt {leaves : Words → Words} {tree : Words} {i : ℕ} {word : UInt32} (h : Reads L leaves tree i)
    {x : ℕ} (hx : x + i < L.length) (hword : tree[x]? = some word) : elementAt (leaves tree) (x : ℤ) = .ok word :=
  elementAt_nat ((h tree i le_rfl (fun _ _ => rfl) x hx).trans hword)

/-- What a subtree leaves in memory: its words from `head` to `p`, and everything else as it was. -/
structure Built (base : ℕ) (t : CodeTree ℕ) (tree tree' : Words) (head p : ℕ) : Prop where
  length : tree'.length = tree.length
  frame : ∀ x, x < head ∨ p ≤ x → tree'[x]? = tree[x]?
  linked : ∀ tree'' : Words, (∀ x, head ≤ x → x < p → tree''[x]? = tree'[x]?) → ∀ a off, a + off = head →
    Linked tree'' base a (4 * off) t

theorem toNat_halves {u v : UInt32} (high : ℕ) (hu : u.toNat = high * 65536) (hv : v.toNat < 65536) :
    (u ||| v).toNat / 65536 = high ∧ (u ||| v).toNat % 65536 = v.toNat := by
  have hor : (u ||| v).toNat = high * 65536 + v.toNat := by
    rw [UInt32.toNat_or, hu, show high * 65536 = high <<< 16 from (Nat.shiftLeft_eq high 16).symm,
      ← Nat.shiftLeft_add_eq_or_of_lt hv]
  rw [hor]
  omega

theorem toNat_shiftRight_16_lt (word : UInt32) : (word >>> 16).toNat < 65536 := by
  have hlt := word.toNat_lt
  rw [toNat_shiftRight_16]
  omega

theorem toNat_upper_half (word : UInt32) : (word >>> 16 <<< 16).toNat = word.toNat / 65536 * 65536 := by
  have hlt := toNat_shiftRight_16_lt word
  rw [UInt32.toNat_shiftLeft, show (16 : UInt32).toNat % 32 = 16 from rfl, Nat.shiftLeft_eq,
    Nat.mod_eq_of_lt (by omega), toNat_shiftRight_16]

theorem getElem?_modify_const {tree : Words} {head : ℕ} (v : UInt32) (h : head < tree.length) (x : ℕ) :
    (tree.modify head fun _ => v)[x]? = if x = head then some v else tree[x]? := by
  rw [List.getElem?_modify]
  by_cases hx : x = head
  · rw [if_pos hx, hx, List.getElem?_eq_getElem h]
    simp
  · rw [if_neg hx]
    simp [Ne.symm hx]

theorem built_node {zero one : CodeTree ℕ} {tree tree₁ : Words} {head p : ℕ} {word : UInt32}
    (hlength : tree₁.length = tree.length) (hhead : head < p) (hroom : p ≤ tree.length)
    (hframe : ∀ x, x < head + 1 ∨ p ≤ x → tree₁[x]? = tree[x]?)
    (hzero : ∀ tree'' : Words, (∀ x, head + 1 ≤ x → x < p → tree''[x]? = tree₁[x]?) →
      Linked tree'' base head (word.toNat % 65536) zero)
    (hone : ∀ tree'' : Words, (∀ x, head + 1 ≤ x → x < p → tree''[x]? = tree₁[x]?) →
      Linked tree'' base head (word.toNat / 65536) one) :
    Built base (.node zero one) tree (tree₁.modify head fun _ => word) head p := by
  have hget := getElem?_modify_const word (show head < tree₁.length by omega)
  refine ⟨by rw [List.length_modify, hlength], ?_, ?_⟩
  · intro x hx
    rw [hget, if_neg (by omega), hframe x (by omega)]
  · rintro tree'' hagree a off rfl
    have hsub : ∀ x, a + off + 1 ≤ x → x < p → tree''[x]? = tree₁[x]? := by
      intro x hx hxp
      rw [hagree x (by omega) hxp, hget, if_neg (by omega)]
    refine ⟨off, word, rfl, ?_, hzero tree'' hsub, hone tree'' hsub⟩
    rw [hagree _ le_rfl hhead, hget, if_pos rfl]

variable {level : List ℤ}

theorem Levels.exists_drop (h : Levels L level) {d : ℕ} (hd : d < KMaxCodeLength) :
    ∃ l, level[d]? = some l ∧ level.drop d = l :: level.drop (d + 1) := by
  have hlt : d < level.length := h.length ▸ hd
  exact ⟨level[d], List.getElem?_eq_getElem hlt, List.drop_eq_getElem_cons hlt⟩

theorem getElem?_of_drop {i k : ℕ} (front : List (ℕ × ℕ)) {post : List (ℕ × ℕ)} {leaf : ℕ × ℕ}
    (h : L.drop i = front ++ leaf :: post)
    (hk : front.length = k) : L[i + k]? = some leaf := by
  rw [← List.getElem?_drop, h, List.getElem?_append_right (by omega), hk, Nat.sub_self]
  rfl

/-- A subtree whose leaves come next is built below `p`, whatever memory the leaves are read in. -/
theorem HuffmanSubTree_spec (hlevel : Levels L level) (hsorted : ByDepth L) (hmax : ∀ leaf ∈ L, leaf.1 ≤ KMaxCodeLength)
    (hsmall : 4 * L.length < 65536) (t : CodeTree ℕ) {d i p : ℕ}
    {post : List (ℕ × ℕ)} {tree : Words} (hnode : ∀ s, t ≠ .leaf s) (hleaves : L.drop i = t.leaves d ++ post)
    (hp : L.length ≤ p + i + 1) (hroom : p ≤ tree.length) (hhold : Holds L base tree i) :
    ∃ tree', Built base t tree tree' (p + 1 - (t.leaves d).length) p ∧
      ∀ leaves, Reads L leaves tree i → HuffmanSubTree leaves (level.drop d) p ((L.length : ℤ) - 1 - i) tree =
        .ok ((p : ℤ) + 1 - (t.leaves d).length, tree') := by
  induction t generalizing d i p post tree with
  | leaf s => exact absurd rfl (hnode s)
  | node zero one ihZero ihOne =>
    rw [CodeTree.leaves] at hleaves
    have hlength : i + (((zero.leaves (d + 1)).length + (one.leaves (d + 1)).length) + post.length) = L.length := by
      have hdrop := congrArg List.length hleaves
      have hpos := zero.length_leaves_pos (d + 1)
      simp only [List.length_drop, List.length_append] at hdrop
      omega
    have hd : d < KMaxCodeLength := by
      obtain ⟨leaf, hleaf⟩ := List.exists_mem_of_length_pos (zero.length_leaves_pos (d + 1))
      have hmem : leaf ∈ L.drop i := by
        rw [hleaves]
        exact List.mem_append_left _ (List.mem_append_left _ hleaf)
      have hge := CodeTree.le_depth hleaf
      have hle := hmax leaf (List.mem_of_mem_drop hmem)
      omega
    obtain ⟨l, hl, hdrop⟩ := hlevel.exists_drop hd
    have hiff := hlevel.le_iff d l hl
    have honePos := one.length_leaves_pos (d + 1)
    have hzeroPos := zero.length_leaves_pos (d + 1)
    cases zero with
    | leaf s₀ =>
      rw [CodeTree.leaves, List.singleton_append, List.cons_append] at hleaves
      have hleaf₀ := getElem?_of_drop (k := 0) [] hleaves rfl
      obtain ⟨word₀, hword₀, hterm₀⟩ := hhold i _ le_rfl hleaf₀
      have hl₀ := (hiff i _ hleaf₀).mpr le_rfl
      have hvalue₀ : (L.length : ℤ) - 1 - i = ((L.length - 1 - i : ℕ) : ℤ) := by omega
      have hlow₀ : (word₀ >>> 16).toNat = term base s₀ := by rw [toNat_shiftRight_16, hterm₀]
      cases one with
      | leaf s₁ =>
        -- both leaves are of this length
        rw [CodeTree.leaves, List.singleton_append] at hleaves
        have hleaf₁ := getElem?_of_drop (k := 1) [_] hleaves rfl
        obtain ⟨word₁, hword₁, hterm₁⟩ := hhold (i + 1) _ (Nat.le_succ i) hleaf₁
        have hl₁ := (hiff (i + 1) _ hleaf₁).mpr le_rfl
        have hvalue₁ : (L.length : ℤ) - 1 - i - 1 = ((L.length - 1 - (i + 1) : ℕ) : ℤ) := by
          simp only [CodeTree.leaves, List.length_singleton] at hlength
          omega
        have hhalves := toNat_halves _ (toNat_upper_half word₁) (toNat_shiftRight_16_lt word₀)
        simp only [CodeTree.leaves, List.length_append, List.length_singleton] at hlength ⊢
        refine ⟨tree.modify (p - 1) fun _ => word₁ >>> 16 <<< 16 ||| word₀ >>> 16,
          built_node rfl (by omega) hroom (fun x _ => rfl) ?_ ?_, fun leaves hreads => ?_⟩
        · intro tree'' _
          rw [Linked, hhalves.2, hlow₀]
        · intro tree'' _
          rw [Linked, hhalves.1, hterm₁]
        · have hread₀ := hreads.elementAt (by omega) hword₀
          have hread₁ := hreads.elementAt (by omega) hword₁
          rw [hdrop, HuffmanSubTree, if_neg (by omega), if_neg (by omega), hvalue₁, hread₁, hvalue₀, hread₀]
          have hhead : (p : ℤ) - 1 = ((p - 1 : ℕ) : ℤ) := by omega
          simp only [hhead, modifyAt_nat (show p - 1 < tree.length by omega)]
          have hend : (p : ℤ) + 1 - ((1 + 1 : ℕ) : ℤ) = ((p - 1 : ℕ) : ℤ) := by omega
          rw [hend]
          rfl
      | node zero₁ one₁ =>
        -- the other leaves are all longer
        obtain ⟨leaf₁, rest₁, hfirst₁, hmem₁⟩ := (CodeTree.node zero₁ one₁).exists_first (d + 1)
        have hdeep₁ := CodeTree.lt_depth hmem₁
        have hrest : L.drop (i + 1) = (CodeTree.node zero₁ one₁).leaves (d + 1) ++ post := by
          rw [← List.drop_drop, hleaves]
          rfl
        rw [hfirst₁, List.cons_append] at hleaves
        have hleaf₁ := getElem?_of_drop (k := 1) [_] hleaves rfl
        have hl₁ := (hiff (i + 1) _ hleaf₁).not.mpr (by omega)
        have hsame : ∀ x, x + (i + 1) < L.length → tree[x]? = tree[x]? := fun x _ => rfl
        obtain ⟨tree₁, hbuilt, hrun⟩ := ihOne (fun s => by simp) hrest (by omega) hroom (hhold.mono (Nat.le_succ i) hsame)
        have hhalves := toNat_halves (u := KBranch1) 4 rfl (toNat_shiftRight_16_lt word₀)
        rw [CodeTree.leaves, List.length_append, CodeTree.leaves, List.length_singleton]
        rw [CodeTree.leaves, List.length_singleton] at hlength
        generalize hn : ((CodeTree.node zero₁ one₁).leaves (d + 1)).length = n at *
        have hhead : p + 1 - n = p + 1 - (1 + n) + 1 := by omega
        refine ⟨tree₁.modify (p + 1 - (1 + n)) fun _ => KBranch1 ||| word₀ >>> 16,
          built_node hbuilt.length (by omega) hroom (fun x hx => hbuilt.frame x (by omega)) ?_ ?_,
          fun leaves hreads => ?_⟩
        · intro tree'' _
          rw [Linked, hhalves.2, hlow₀]
        · intro tree'' hagree
          rw [hhalves.1]
          exact hbuilt.linked tree'' (fun x hx => hagree x (by omega)) _ 1 hhead.symm
        · have hread₀ := hreads.elementAt (by omega) hword₀
          have hsub := hrun leaves (hreads.mono (Nat.le_succ i) hsame)
          have hnext : (L.length : ℤ) - 1 - i - 1 = (L.length : ℤ) - 1 - ((i + 1 : ℕ) : ℤ) := by omega
          have hwrite : (p : ℤ) + 1 - n - 1 = ((p + 1 - (1 + n) : ℕ) : ℤ) := by omega
          have hend : (p : ℤ) + 1 - ((1 + n : ℕ) : ℤ) = ((p + 1 - (1 + n) : ℕ) : ℤ) := by omega
          have hfits : p + 1 - (1 + n) < tree₁.length := by
            rw [hbuilt.length]
            omega
          rw [hdrop, HuffmanSubTree, if_neg (by omega), if_pos (by omega), hnext, hsub, hvalue₀, hread₀, hend]
          simp only [ok_bind, hwrite, modifyAt_nat hfits]
          rfl
    | node zero₀ one₀ =>
      -- all leaves are longer, those behind the first subtree as well
      obtain ⟨leaf₀, rest₀, hfirst₀, hmem₀⟩ := (CodeTree.node zero₀ one₀).exists_first (d + 1)
      have hdeep₀ := CodeTree.lt_depth hmem₀
      have hl₀ : ¬ l ≤ (L.length : ℤ) - 1 - i := by
        rw [hfirst₀, List.cons_append, List.cons_append] at hleaves
        exact (hiff i _ (getElem?_of_drop (k := 0) [] hleaves rfl)).not.mpr (by omega)
      have hone : ∀ s, one ≠ .leaf s := by
        rintro s rfl
        have hpair : ByDepth (L.drop i) := hsorted.drop
        rw [hleaves, CodeTree.leaves] at hpair
        have hle := (List.pairwise_append.mp (List.pairwise_append.mp hpair).1).2.2 leaf₀ hmem₀ (d + 1, s) (by simp)
        omega
      rw [List.append_assoc] at hleaves
      obtain ⟨tree₁, hbuilt₀, hrun₀⟩ := ihZero (fun s => by simp) hleaves hp hroom hhold
      rw [CodeTree.leaves, List.length_append]
      generalize hn₀ : ((CodeTree.node zero₀ one₀).leaves (d + 1)).length = n₀ at *
      have hrest : L.drop (i + n₀) = one.leaves (d + 1) ++ post := by
        rw [← List.drop_drop, hleaves, ← hn₀, List.drop_left]
      have hsame : ∀ x, x + (i + n₀) < L.length → tree₁[x]? = tree[x]? := fun x hx => hbuilt₀.frame x (by omega)
      obtain ⟨tree₂, hbuilt₁, hrun₁⟩ := ihOne (p := p + 1 - n₀) hone hrest (by omega) (by rw [hbuilt₀.length]; omega)
        (hhold.mono (Nat.le_add_right i n₀) hsame)
      generalize hn₁ : (one.leaves (d + 1)).length = n₁ at *
      have hhead : p + 1 - n₀ + 1 - n₁ = p + 1 - (n₀ + n₁) + 1 := by omega
      have hbranch : (UInt32.ofNat (4 * n₁)).toNat = 4 * n₁ :=
        UInt32.toNat_ofNat_of_lt' (lt_trans (by omega : 4 * n₁ < 65536) (by decide))
      have hhalves := toNat_halves (u := KBranch1) 4 rfl (show (UInt32.ofNat (4 * n₁)).toNat < 65536 by omega)
      rw [hbranch] at hhalves
      refine ⟨tree₂.modify (p + 1 - (n₀ + n₁)) fun _ => KBranch1 ||| UInt32.ofNat (4 * n₁),
        built_node (hbuilt₁.length.trans hbuilt₀.length) (by omega) hroom ?_ ?_ ?_, fun leaves hreads => ?_⟩
      · intro x hx
        rw [hbuilt₁.frame x (by omega), hbuilt₀.frame x (by omega)]
      · intro tree'' hagree
        rw [hhalves.2]
        refine hbuilt₀.linked tree'' (fun x hx hxp => ?_) _ n₁ (by omega)
        rw [hagree x (by omega) hxp, hbuilt₁.frame x (by omega)]
      · intro tree'' hagree
        rw [hhalves.1]
        exact hbuilt₁.linked tree'' (fun x hx hxp => hagree x (by omega) (by omega)) _ 1 hhead.symm
      · have hsub₀ := hrun₀ leaves hreads
        have hsub₁ := hrun₁ leaves (hreads.mono (Nat.le_add_right i n₀) hsame)
        have hpos : ((p + 1 - n₀ : ℕ) : ℤ) = (p : ℤ) + 1 - n₀ := by omega
        have hnext : (L.length : ℤ) - 1 - i - ((p : ℤ) - ((p : ℤ) + 1 - n₀)) - 1 = (L.length : ℤ) - 1 - ((i + n₀ : ℕ) : ℤ) := by
          omega
        have hwrite : (p : ℤ) + 1 - n₀ + 1 - n₁ - 1 = ((p + 1 - (n₀ + n₁) : ℕ) : ℤ) := by omega
        have hend : (p : ℤ) + 1 - ((n₀ + n₁ : ℕ) : ℤ) = ((p + 1 - (n₀ + n₁) : ℕ) : ℤ) := by omega
        have hdistance : (4 * ((p : ℤ) + 1 - n₀ - ((p + 1 - (n₀ + n₁) : ℕ) : ℤ))).toNat = 4 * n₁ := by omega
        have hfits : p + 1 - (n₀ + n₁) < tree₂.length := by
          rw [hbuilt₁.length, hbuilt₀.length]
          omega
        rw [hpos] at hsub₁
        rw [hdrop, HuffmanSubTree, if_pos (by omega), hsub₀]
        simp only [ok_bind, hnext, hsub₁, hwrite, hdistance, modifyAt_nat hfits, hend]
        rfl

end

end GnuPoc.Deflate
