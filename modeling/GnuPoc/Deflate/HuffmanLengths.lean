import GnuPoc.Deflate.Lengths

/-!
# GnuPoc.Deflate.HuffmanLengths — every symbol that occurs has a length (`encode.cpp`)

The nodes in front refer to symbols and to nodes behind them.  No symbol is lost when nodes are inserted and put
together, so that the recursion comes to all of them and writes how deep they are.
-/

namespace GnuPoc.Deflate.Huffman

open GnuPoc.Lib

/-! ### Inserting a node -/

theorem searchLoop_ok (nodes : List TNode) (aCount : UInt32) {l r : ℕ} (hlr : l ≤ r) (hr : r ≤ nodes.length) :
    ∃ k ≤ r, searchLoop nodes aCount l r = .ok k := by
  rw [searchLoop]
  by_cases hlt : l < r
  · have hm : (l + r) / 2 < nodes.length := by omega
    rw [if_pos hlt]
    dsimp only
    rw [elementAt_nat (List.getElem?_eq_getElem hm), ok_bind]
    split
    · obtain ⟨k, hk, hrun⟩ := searchLoop_ok nodes aCount (l := l) (r := (l + r) / 2) (by omega) (by omega)
      exact ⟨k, by omega, hrun⟩
    · exact searchLoop_ok nodes aCount (l := (l + r) / 2 + 1) (r := r) (by omega) hr
  · exact ⟨l, hlr, if_neg hlt⟩
termination_by r - l

/-- The nodes from `l` on move up by one. -/
theorem shiftNodes_ok (l : ℕ) {n : ℕ} (nodes : List TNode) (h : l + n < nodes.length) :
    ∃ nodes', shiftNodes l n nodes = .ok nodes' ∧ nodes'.length = nodes.length ∧
      ∀ i, nodes'[i]? = if l < i ∧ i ≤ l + n then nodes[i - 1]? else nodes[i]? := by
  induction n generalizing nodes with
  | zero => exact ⟨nodes, rfl, rfl, fun i => (if_neg (by omega)).symm⟩
  | succ n ih =>
    have hget : nodes[l + n]? = some nodes[l + n] := List.getElem?_eq_getElem (by omega)
    obtain ⟨nodes', hrun, hlength, hsame⟩ := ih (nodes.modify (l + n + 1) fun _ => nodes[l + n])
      (by rw [List.length_modify]; omega)
    refine ⟨nodes', ?_, by rw [hlength, List.length_modify], fun i => ?_⟩
    · rw [shiftNodes, elementAt_nat hget, ok_bind, modifyAt_nat (by omega), ok_bind, hrun]
    · rw [hsame]
      by_cases hlast : i = l + n + 1
      · subst hlast
        have hin : l + n + 1 < nodes.length := by omega
        rw [if_neg (by omega), if_pos (by omega), List.getElem?_modify_eq, Nat.add_sub_cancel, hget,
          List.getElem?_eq_getElem hin]
        rfl
      · rw [List.getElem?_modify_ne _ _ (Ne.symm hlast)]
        by_cases hmoved : l < i ∧ i ≤ l + n
        · rw [if_pos hmoved, if_pos (by omega), List.getElem?_modify_ne _ _ (by omega)]
        · rw [if_neg hmoved, if_neg (by omega)]

/-- The reference of a node. -/
def refAt (nodes : List TNode) (i : ℕ) : Option UInt16 := nodes[i]?.map TNode.iRight

/-- A node is inserted among the first `n`: these keep their references, and the nodes behind the next one stay. -/
theorem InsertInOrder_ok (nodes : List TNode) {n : ℕ} (h : n < nodes.length) (aCount : UInt32) (aVal : UInt16) :
    ∃ nodes', InsertInOrder nodes n aCount aVal = .ok nodes' ∧ nodes'.length = nodes.length ∧
      (∀ i, n < i → nodes'[i]? = nodes[i]?) ∧ (∃ j ≤ n, refAt nodes' j = some aVal) ∧
      ∀ i < n, ∃ j ≤ n, refAt nodes' j = refAt nodes i := by
  obtain ⟨l, hl, hsearch⟩ := searchLoop_ok nodes aCount (Nat.zero_le n) h.le
  obtain ⟨shifted, hshift, hlength, hsame⟩ := shiftNodes_ok l (n := n - l) nodes (by omega)
  refine ⟨shifted.modify l fun node => { node with iCount := aCount, iRight := aVal }, ?_, ?_, fun i hi => ?_, ⟨l, hl, ?_⟩,
    fun i hi => ?_⟩
  · rw [InsertInOrder, hsearch, ok_bind, hshift, ok_bind, modifyAt_nat (by omega)]
  · rw [List.length_modify, hlength]
  · rw [List.getElem?_modify_ne _ _ (by omega), hsame, if_neg (by omega)]
  · rw [refAt, List.getElem?_modify_eq, List.getElem?_eq_getElem (by omega)]
    rfl
  · by_cases hil : i < l
    · refine ⟨i, hi.le, ?_⟩
      rw [refAt, List.getElem?_modify_ne _ _ (by omega), hsame, if_neg (by omega), refAt]
    · refine ⟨i + 1, hi, ?_⟩
      rw [refAt, List.getElem?_modify_ne _ _ (by omega), hsame, if_pos (by omega), refAt, Nat.add_sub_cancel]

/-! ### References -/

theorem or_KLeaf {ii : ℕ} (h : ii < 0x8000) : (UInt16.ofNat ii ||| KLeaf).toNat = 0x8000 + ii := by
  have hor := Nat.two_pow_add_eq_or_of_lt (i := 15) h 1
  rw [UInt16.toNat_or, UInt16.toNat_ofNat_of_lt' (lt_trans h (by decide)), Nat.or_comm]
  exact hor.symm

theorem and_KLeaf (x : UInt16) : x &&& KLeaf = 0 ↔ x.toNat < 0x8000 := by
  have hx := x.toNat_lt
  have hand : (x &&& KLeaf).toNat = (x.toNat.testBit 15).toNat * 2 ^ 15 := by
    rw [UInt16.toNat_and, ← Nat.and_two_pow]
    rfl
  have hbit : x.toNat.testBit 15 = decide (0x8000 ≤ x.toNat) := by
    rw [Nat.testBit_eq_decide_div_mod_eq, decide_eq_decide]
    omega
  rw [← UInt16.toNat_inj, hand, hbit]
  by_cases h : 0x8000 ≤ x.toNat
  · simp [h]
  · simp only [h, decide_false, Bool.toNat_false, Nat.zero_mul]
    exact iff_of_true rfl (not_le.mp h)

theorem and_not_KLeaf (x : UInt16) : (x &&& ~~~KLeaf).toNat = x.toNat % 0x8000 := by
  rw [UInt16.toNat_and]
  exact Nat.and_two_pow_sub_one_eq_mod x.toNat 15

/-- The symbol is below the reference, in the nodes from `bound` on. -/
inductive Below (nodes : List TNode) (bound s : ℕ) : UInt16 → Prop
  | leaf {x : UInt16} (h : x.toNat = 0x8000 + s) : Below nodes bound s x
  | left {x : UInt16} {node : TNode} (hx : x.toNat < 0x8000) (hbound : bound ≤ x.toNat) (hnode : nodes[x.toNat]? = some node)
    (h : Below nodes bound s node.iLeft) : Below nodes bound s x
  | right {x : UInt16} {node : TNode} (hx : x.toNat < 0x8000) (hbound : bound ≤ x.toNat) (hnode : nodes[x.toNat]? = some node)
    (h : Below nodes bound s node.iRight) : Below nodes bound s x

theorem Below.mono {nodes nodes' : List TNode} {bound bound' s : ℕ} (hle : bound' ≤ bound)
    (hsame : ∀ i, bound ≤ i → nodes'[i]? = nodes[i]?) {x : UInt16} (h : Below nodes bound s x) :
    Below nodes' bound' s x := by
  induction h with
  | leaf h => exact .leaf h
  | left hx hbound hnode _ ih => exact .left hx (hle.trans hbound) ((hsame _ hbound).trans hnode) ih
  | right hx hbound hnode _ ih => exact .right hx (hle.trans hbound) ((hsame _ hbound).trans hnode) ih

variable {nodes : List TNode}

theorem below_leaf {bound s : ℕ} {x : UInt16} (hx : x &&& KLeaf ≠ 0) (h : Below nodes bound s x) :
    s = (x &&& ~~~KLeaf).toNat := by
  have hlarge : ¬ x.toNat < 0x8000 := fun hlt => hx ((and_KLeaf x).mpr hlt)
  cases h with
  | leaf h =>
    have := x.toNat_lt
    rw [and_not_KLeaf]
    omega
  | left hlt => exact absurd hlt hlarge
  | right hlt => exact absurd hlt hlarge

theorem below_node {bound s : ℕ} {x : UInt16} {node : TNode} (hx : x.toNat < 0x8000)
    (hnode : nodes[x.toNat]? = some node) (h : Below nodes bound s x) :
    Below nodes bound s node.iLeft ∨ Below nodes bound s node.iRight := by
  cases h with
  | leaf h => omega
  | left _ _ hnode' h => exact .inl (Option.some.inj (hnode.symm.trans hnode') ▸ h)
  | right _ _ hnode' h => exact .inr (Option.some.inj (hnode.symm.trans hnode') ▸ h)

/-- One of the first `n` nodes has the symbol below it. -/
def Held (nodes : List TNode) (n s : ℕ) : Prop := ∃ i < n, ∃ x, refAt nodes i = some x ∧ Below nodes n s x

/-! ### The symbols that occur -/

/-- A symbol that is one of the first `n` nodes. -/
def HeldLeaf (nodes : List TNode) (n s : ℕ) : Prop := ∃ i < n, ∃ x, refAt nodes i = some x ∧ x.toNat = 0x8000 + s

/-- Each symbol that occurs is held as a leaf. -/
theorem insertSymbols_ok (aFrequency : Words) (ii n : ℕ) (nodes : List TNode) (hroom : n + aFrequency.length ≤ nodes.length)
    (hii : ii + aFrequency.length ≤ 0x8000) :
    ∃ nodes' n', (aFrequency.zipIdx ii).foldlM insertSymbol (nodes, n) = .ok (nodes', n') ∧
      nodes'.length = nodes.length ∧ n' ≤ nodes.length ∧ (∀ s, HeldLeaf nodes n s → HeldLeaf nodes' n' s) ∧
      ∀ k count, aFrequency[k]? = some count → count ≠ 0 → HeldLeaf nodes' n' (ii + k) := by
  induction aFrequency generalizing ii n nodes with
  | nil => exact ⟨nodes, n, rfl, rfl, hroom, fun _ h => h, fun k _ h => by simp at h⟩
  | cons count aFrequency ih =>
    rw [List.length_cons] at hroom hii
    rw [List.zipIdx_cons, List.foldlM_cons]
    by_cases hcount : count ≠ 0
    · obtain ⟨nodes₁, hrun₁, hlength₁, -, ⟨j, hj, hval⟩, hkeep⟩ := InsertInOrder_ok nodes (n := n) (by omega) count
        (UInt16.ofNat ii ||| KLeaf)
      obtain ⟨nodes', n', hrun, hlength, hn', hold, hnew⟩ := ih (ii + 1) (n + 1) nodes₁ (by omega) (by omega)
      refine ⟨nodes', n', ?_, by omega, by omega, fun s hs => hold s ?_, fun k c hk hc => ?_⟩
      · rw [insertSymbol, if_pos hcount, hrun₁]
        exact hrun
      · obtain ⟨i, hi, x, hx, hs⟩ := hs
        obtain ⟨j, hj, hsame⟩ := hkeep i hi
        exact ⟨j, by omega, x, hsame.trans hx, hs⟩
      · rcases k with _ | k
        · exact hold ii ⟨j, by omega, _, hval, or_KLeaf (by omega)⟩
        · have := hnew k c hk hc
          rwa [Nat.add_assoc, Nat.add_comm 1 k] at this
    · obtain ⟨nodes', n', hrun, hlength, hn', hold, hnew⟩ := ih (ii + 1) n nodes (by omega) (by omega)
      refine ⟨nodes', n', ?_, hlength, hn', hold, fun k c hk hc => ?_⟩
      · rw [insertSymbol, if_neg hcount]
        exact hrun
      · rcases k with _ | k
        · exact absurd hc (by rw [← Option.some.inj hk]; exact hcount)
        · have := hnew k c hk hc
          rwa [Nat.add_assoc, Nat.add_comm 1 k] at this

/-! ### Pairing off -/

/-- One turn: the symbols below the last two nodes are below the node they are put together in. -/
theorem pairLoop_turn {lCount : ℕ} (hlen : lCount + 2 ≤ nodes.length) (hsmall : nodes.length ≤ 0x8000) :
    ∃ nodes', pairLoop (lCount + 2) nodes = pairLoop (lCount + 1) nodes' ∧ nodes'.length = nodes.length ∧
      (∃ j ≤ lCount, refAt nodes' j = some (UInt16.ofNat (lCount + 1))) ∧
      ∀ s, Held nodes (lCount + 2) s → Held nodes' (lCount + 1) s := by
  have hlast : nodes[lCount + 1]? = some nodes[lCount + 1] := List.getElem?_eq_getElem (by omega)
  have hbefore : nodes[lCount]? = some nodes[lCount] := List.getElem?_eq_getElem (by omega)
  obtain ⟨nodes', hrun, hlength, hsame, ⟨j, hj, hval⟩, hkeep⟩ := InsertInOrder_ok
    (nodes.modify (lCount + 1) fun node => { node with iLeft := nodes[lCount].iRight }) (n := lCount)
    (by rw [List.length_modify]; omega) (nodes[lCount + 1].iCount + nodes[lCount].iCount) (UInt16.ofNat (lCount + 1))
  refine ⟨nodes', ?_, by rw [hlength, List.length_modify], ⟨j, hj, hval⟩, fun s hs => ?_⟩
  · rw [pairLoop, elementAt_nat hlast, ok_bind, elementAt_nat hbefore, ok_bind, modifyAt_nat (by omega), ok_bind, hrun, ok_bind]
  obtain ⟨i, hi, x, hx, hbelow⟩ := hs
  have hbehind : ∀ k, lCount + 2 ≤ k → nodes'[k]? = nodes[k]? := fun k hk => by
    rw [hsame k (by omega), List.getElem?_modify_ne _ _ (by omega)]
  have hmoved : Below nodes' (lCount + 1) s x := hbelow.mono (by omega) hbehind
  have hnumber : (UInt16.ofNat (lCount + 1)).toNat = lCount + 1 :=
    UInt16.toNat_ofNat_of_lt' (lt_of_lt_of_le (by omega : lCount + 1 < 0x8000) (by decide))
  have hpair : nodes'[(UInt16.ofNat (lCount + 1)).toNat]? =
      some { nodes[lCount + 1] with iLeft := nodes[lCount].iRight } := by
    rw [hnumber, hsame _ (by omega), List.getElem?_modify_eq, hlast]
    rfl
  by_cases hfront : i < lCount
  · obtain ⟨j, hj, href⟩ := hkeep i hfront
    have hold : refAt (nodes.modify (lCount + 1) fun node => { node with iLeft := nodes[lCount].iRight }) i = some x := by
      rw [refAt, List.getElem?_modify_ne _ _ (by omega)]
      exact hx
    exact ⟨j, by omega, x, href.trans hold, hmoved⟩
  · refine ⟨j, by omega, _, hval, ?_⟩
    rcases (by omega : i = lCount ∨ i = lCount + 1) with rfl | rfl
    · rw [refAt, hbefore] at hx
      obtain rfl := Option.some.inj hx
      exact .left (by omega) (by omega) hpair hmoved
    · rw [refAt, hlast] at hx
      obtain rfl := Option.some.inj hx
      exact .right (by omega) (by omega) hpair hmoved

theorem pairLoop_ok (lCount : ℕ) (nodes : List TNode) (hlen : lCount + 2 ≤ nodes.length) (hsmall : nodes.length ≤ 0x8000) :
    ∃ nodes', pairLoop (lCount + 2) nodes = .ok nodes' ∧ ∀ s, Held nodes (lCount + 2) s → Below nodes' 1 s 1 := by
  induction lCount generalizing nodes with
  | zero =>
    obtain ⟨nodes', hturn, -, ⟨j, hj, hroot⟩, hheld⟩ := pairLoop_turn hlen hsmall
    refine ⟨nodes', hturn, fun s hs => ?_⟩
    obtain ⟨i, hi, x, hx, hbelow⟩ := hheld s hs
    obtain ⟨rfl, rfl⟩ : i = 0 ∧ j = 0 := by omega
    rw [hroot] at hx
    obtain rfl := Option.some.inj hx
    exact hbelow
  | succ lCount ih =>
    obtain ⟨nodes₁, hturn, hlength, -, hheld⟩ := pairLoop_turn hlen hsmall
    obtain ⟨nodes', hloop, hbelow⟩ := ih nodes₁ (by omega) (by omega)
    exact ⟨nodes', hturn.trans hloop, fun s hs => hbelow s (hheld s hs)⟩

/-! ### The recursion -/

/-- A table of lengths that are not too long, in which these symbols have one. -/
structure HasLengths (n : ℕ) (symbols : ℕ → Prop) (table : Words) : Prop where
  length : table.length = n
  short : ∀ len ∈ table, len.toNat ≤ KMaxCodeLength
  occurs : ∀ s, symbols s → ∃ len, table[s]? = some len ∧ len ≠ 0

theorem HasLengths.modify {n : ℕ} {symbols : ℕ → Prop} {table table' : Words} (h : HasLengths n symbols table) {i len : ℕ}
    (hpos : 0 < len) (hle : len ≤ KMaxCodeLength) (hrun : modifyAt table (i : ℤ) (fun _ => UInt32.ofNat len) = .ok table') :
    HasLengths n (fun s => symbols s ∨ s = i) table' := by
  have hlen : (UInt32.ofNat len).toNat = len := UInt32.toNat_ofNat_of_lt' (lt_of_le_of_lt hle (by decide))
  have hi : i < table.length := by
    by_contra hout
    rw [modifyAt, if_neg (by omega)] at hrun
    cases hrun
  rw [modifyAt_nat hi] at hrun
  obtain rfl := Except.ok.inj hrun
  have hne : UInt32.ofNat len ≠ 0 := fun h0 => by
    rw [h0] at hlen
    exact absurd hlen.symm (Nat.pos_iff_ne_zero.mp hpos)
  have hentry : (table.modify i fun _ => UInt32.ofNat len)[i]? = some (UInt32.ofNat len) := by
    rw [List.getElem?_modify_eq, List.getElem?_eq_getElem hi]
    rfl
  refine ⟨by rw [List.length_modify, h.length], fun word hword => ?_, fun s hs => ?_⟩
  · obtain ⟨k, hk⟩ := List.mem_iff_getElem?.mp hword
    by_cases hki : i = k
    · subst hki
      rw [hentry] at hk
      rw [← Option.some.inj hk, hlen]
      exact hle
    · rw [List.getElem?_modify_ne _ _ hki] at hk
      exact h.short word (List.mem_of_getElem? hk)
  · by_cases hsi : i = s
    · subst hsi
      exact ⟨_, hentry, hne⟩
    · rw [List.getElem?_modify_ne _ _ hsi]
      exact h.occurs s (hs.resolve_right (Ne.symm hsi))

theorem HasLengths.mono {n : ℕ} {symbols symbols' : ℕ → Prop} {table : Words} (h : HasLengths n symbols table)
    (hsub : ∀ s, symbols' s → symbols s) : HasLengths n symbols' table :=
  ⟨h.length, h.short, fun s hs => h.occurs s (hsub s hs)⟩

theorem getElem?_of_elementAt {i : ℕ} {node : TNode} (h : elementAt nodes (i : ℤ) = .ok node) :
    nodes[i]? = some node := by
  by_cases hin : i < nodes.length
  · rw [elementAt_nat (List.getElem?_eq_getElem hin)] at h
    rw [List.getElem?_eq_getElem hin, Except.ok.inj h]
  · rw [elementAt_outside (by omega)] at h
    cases h

theorem HuffmanLengthsL_occurs {bound room n : ℕ}
    (hbranch : ∀ {symbols : ℕ → Prop} {x : UInt16} {table table' : Words}, HasLengths n symbols table →
      branchLengths (HuffmanLengthsL nodes room) (KMaxCodeLength - room) x table = .ok table' →
      HasLengths n (fun s => symbols s ∨ Below nodes bound s x) table')
    {symbols : ℕ → Prop} {x : UInt16} {table table' : Words} (hx : x.toNat < 0x8000) (h : HasLengths n symbols table)
    (hrun : HuffmanLengthsL nodes (room + 1) table x.toNat = .ok table') :
    HasLengths n (fun s => symbols s ∨ Below nodes bound s x) table' := by
  obtain ⟨node, hnode, hrun⟩ := bind_eq_ok.mp hrun
  obtain ⟨table₁, hleft, hright⟩ := bind_eq_ok.mp hrun
  refine (hbranch (hbranch h hleft) hright).mono fun s hs => ?_
  rcases hs with hs | hs
  · exact .inl (.inl hs)
  · exact (below_node hx (getElem?_of_elementAt (lift_eq_ok.mp hnode)) hs).imp_left .inr

theorem branchLengths_occurs {bound room n : ℕ} (hroom : room < KMaxCodeLength) {symbols : ℕ → Prop}
    {x : UInt16} {table table' : Words} (h : HasLengths n symbols table)
    (hrun : branchLengths (HuffmanLengthsL nodes room) (KMaxCodeLength - room) x table = .ok table') :
    HasLengths n (fun s => symbols s ∨ Below nodes bound s x) table' := by
  induction room generalizing symbols x table table' with
  | zero =>
    rw [branchLengths] at hrun
    split at hrun
    · next hleaf =>
      exact (h.modify (by omega) (by omega) (lift_eq_ok.mp hrun)).mono fun s hs => hs.imp_right (below_leaf hleaf)
    · cases hrun
  | succ room ih =>
    rw [branchLengths] at hrun
    split at hrun
    · next hleaf =>
      exact (h.modify (by omega) (by omega) (lift_eq_ok.mp hrun)).mono fun s hs => hs.imp_right (below_leaf hleaf)
    · next hleaf => exact HuffmanLengthsL_occurs (ih (by omega)) ((and_KLeaf x).mp (not_not.mp hleaf)) h hrun

/-! ### `HuffmanL` -/

/-- A table for these frequencies: it is valid, and every symbol that occurs has a length. -/
structure TableFor (aFrequency aHuffman : Words) : Prop where
  length : aHuffman.length = aFrequency.length
  valid : IsValid aHuffman = true
  short : ∀ len ∈ aHuffman, len.toNat ≤ KMaxCodeLength
  occurs : ∀ (s : ℕ) (count : UInt32), aFrequency[s]? = some count → count ≠ 0 → ∃ len, aHuffman[s]? = some len ∧ len ≠ 0

theorem valid_of_check {table table' : Words}
    (h : (if ¬ IsValid table then Panic .EHuffmanInvalidCoding else pure table : Except Stop Words) = .ok table') :
    table = table' ∧ IsValid table' = true := by
  by_cases hvalid : IsValid table = true
  · rw [if_neg (not_not.mpr hvalid)] at h
    obtain rfl := Except.ok.inj h
    exact ⟨rfl, hvalid⟩
  · rw [if_pos hvalid] at h
    cases h

/-- The table is one for the frequencies. -/
theorem tableFor_of_HuffmanL {memory : ℕ → TNode} {aFrequency aHuffman : Words}
    (h : HuffmanL memory aFrequency = .ok aHuffman) : TableFor aFrequency aHuffman := by
  rw [HuffmanL] at h
  by_cases hlarge : KMaxCodes < aFrequency.length
  · rw [if_pos hlarge] at h
    cases h
  rw [if_neg hlarge] at h
  have hsize : aFrequency.length ≤ 0x8000 := not_lt.mp hlarge
  have hmemory : ((List.range aFrequency.length).map memory).length = aFrequency.length := by simp
  obtain ⟨nodes, lCount, hsort, hlength, hle, -, hoccur⟩ := insertSymbols_ok aFrequency 0 0
    ((List.range aFrequency.length).map memory) (by omega) (by omega)
  have hempty : HasLengths aFrequency.length (fun _ => False) (List.replicate aFrequency.length 0) :=
    ⟨List.length_replicate, fun len hlen => by rw [List.eq_of_mem_replicate hlen]; exact Nat.zero_le _, fun _ hs => hs.elim⟩
  obtain ⟨sorted, hsorted, h⟩ := bind_eq_ok.mp h
  obtain rfl := Except.ok.inj ((lift_eq_ok.mp hsorted).symm.trans hsort)
  suffices hlengths : IsValid aHuffman = true ∧ HasLengths aFrequency.length (HeldLeaf nodes lCount) aHuffman by
    refine ⟨hlengths.2.length, hlengths.1, hlengths.2.short, fun s count hcount hne => hlengths.2.occurs s ?_⟩
    have hheld := hoccur s count hcount hne
    rwa [Nat.zero_add] at hheld
  dsimp only at h
  rcases lCount with _ | _ | lCount
  · obtain ⟨rfl, hvalid⟩ := valid_of_check h
    refine ⟨hvalid, hempty.mono fun s hs => ?_⟩
    obtain ⟨i, hi, -⟩ := hs
    exact absurd hi (Nat.not_lt_zero i)
  · -- a single symbol has a code of one bit
    obtain ⟨node, hnode, h⟩ := bind_eq_ok.mp h
    obtain ⟨table, htable, h⟩ := bind_eq_ok.mp h
    obtain ⟨rfl, hvalid⟩ := valid_of_check h
    have hget := getElem?_of_elementAt (i := 0) (lift_eq_ok.mp hnode)
    refine ⟨hvalid, (hempty.modify Nat.one_pos (by decide) (lift_eq_ok.mp htable)).mono fun s hs => .inr ?_⟩
    obtain ⟨i, hi, x, hx, hleaf⟩ := hs
    obtain rfl : i = 0 := by omega
    rw [refAt, hget] at hx
    obtain rfl := Option.some.inj hx
    have hsmall := node.iRight.toNat_lt
    rw [and_not_KLeaf]
    omega
  · obtain ⟨nodes', hloop, h⟩ := bind_eq_ok.mp h
    obtain ⟨table, htable, h⟩ := bind_eq_ok.mp h
    obtain ⟨rfl, hvalid⟩ := valid_of_check h
    obtain ⟨nodes₁, hloop₁, hbelow⟩ := pairLoop_ok lCount nodes (by omega) (by omega)
    obtain rfl := Except.ok.inj ((lift_eq_ok.mp hloop).symm.trans hloop₁)
    have hroom : 26 < KMaxCodeLength := by decide
    have hroot : HasLengths aFrequency.length (fun s => False ∨ Below nodes' 1 s 1) table :=
      HuffmanLengthsL_occurs (branchLengths_occurs hroom) (by decide) hempty htable
    refine ⟨hvalid, hroot.mono fun s hs => .inr (hbelow s ?_)⟩
    obtain ⟨i, hi, x, hx, hleaf⟩ := hs
    exact ⟨i, hi, x, hx, .leaf hleaf⟩

end GnuPoc.Deflate.Huffman
