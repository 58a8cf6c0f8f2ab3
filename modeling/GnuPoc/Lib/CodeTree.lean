import Mathlib.Algebra.BigOperators.Group.List.Basic
import Mathlib.Data.List.Sort
import Mathlib.Tactic.Ring

/-!
# GnuPoc.Lib.CodeTree — complete prefix codes of bounded depth

A binary tree whose leaves stand in the order of their depths is given by the depths alone, when these fill the space
of codes.  Its code words are the sums of the spaces that the leaves before them take.
-/

namespace GnuPoc.Lib

/-- A decoding tree: the next bit says on which side to go on. -/
inductive CodeTree (α : Type)
  | leaf (a : α)
  | node (zero one : CodeTree α)

namespace CodeTree

variable {α : Type}

/-- The leaves from the left with their depths, where the root has depth `d`. -/
def leaves : ℕ → CodeTree α → List (ℕ × α)
  | d, leaf a => [(d, a)]
  | d, node zero one => zero.leaves (d + 1) ++ one.leaves (d + 1)

/-- The leaf to which the bits lead, and the bits behind. -/
def decode : CodeTree α → List Bool → Option (α × List Bool)
  | leaf a, bits => some (a, bits)
  | node _ _, [] => none
  | node zero one, bit :: bits => if bit then one.decode bits else zero.decode bits

theorem length_leaves_pos (t : CodeTree α) (d : ℕ) : 0 < (t.leaves d).length := by
  induction t generalizing d with
  | leaf a => exact Nat.one_pos
  | node zero one ih _ =>
    rw [leaves, List.length_append]
    exact Nat.add_pos_left (ih (d + 1)) _

theorem le_depth {t : CodeTree α} {d : ℕ} {leaf : ℕ × α} (h : leaf ∈ t.leaves d) : d ≤ leaf.1 := by
  induction t generalizing d with
  | leaf a =>
    rw [leaves, List.mem_singleton] at h
    rw [h]
  | node zero one ih₀ ih₁ =>
    rw [leaves, List.mem_append] at h
    rcases h with h | h
    · exact (Nat.le_succ d).trans (ih₀ h)
    · exact (Nat.le_succ d).trans (ih₁ h)

theorem lt_depth {zero one : CodeTree α} {d : ℕ} {leaf : ℕ × α} (h : leaf ∈ (node zero one).leaves d) : d < leaf.1 := by
  rw [leaves, List.mem_append] at h
  rcases h with h | h
  · exact le_depth h
  · exact le_depth h

theorem exists_first (t : CodeTree α) (d : ℕ) : ∃ leaf rest, t.leaves d = leaf :: rest ∧ leaf ∈ t.leaves d := by
  rcases h : t.leaves d with _ | ⟨leaf, rest⟩
  · have hpos := t.length_leaves_pos d
    rw [h] at hpos
    exact absurd hpos (Nat.lt_irrefl 0)
  · exact ⟨leaf, rest, rfl, List.mem_cons_self⟩

end CodeTree

/-! ### The space of codes -/

section
variable {α : Type} (D : ℕ)

/-- The space that the leaves take, of `2 ^ D` at the root. -/
def space (ls : List (ℕ × α)) : ℕ := (ls.map fun leaf => 2 ^ (D - leaf.1)).sum

@[simp] theorem space_nil : space D ([] : List (ℕ × α)) = 0 := rfl

@[simp] theorem space_cons (leaf : ℕ × α) (ls : List (ℕ × α)) : space D (leaf :: ls) = 2 ^ (D - leaf.1) + space D ls := by
  simp [space]

@[simp] theorem space_append (ls ls' : List (ℕ × α)) : space D (ls ++ ls') = space D ls + space D ls' := by
  simp [space]

theorem two_pow_half {d : ℕ} (h : d < D) : 2 ^ (D - d) = 2 ^ (D - (d + 1)) + 2 ^ (D - (d + 1)) := by
  rw [← Nat.two_mul, ← Nat.pow_succ']
  congr 1
  omega

theorem CodeTree.space_leaves (t : CodeTree α) {d : ℕ} (h : ∀ leaf ∈ t.leaves d, leaf.1 ≤ D) :
    space D (t.leaves d) = 2 ^ (D - d) := by
  induction t generalizing d with
  | leaf a => simp [CodeTree.leaves]
  | node zero one ih₀ ih₁ =>
    rw [CodeTree.leaves] at h
    have hdeep : d < D := by
      obtain ⟨leaf, hleaf⟩ := List.exists_mem_of_length_pos (zero.length_leaves_pos (d + 1))
      have hle := h leaf (List.mem_append_left _ hleaf)
      have hge := CodeTree.le_depth hleaf
      omega
    rw [CodeTree.leaves, space_append, ih₀ fun leaf hleaf => h leaf (List.mem_append_left _ hleaf),
      ih₁ fun leaf hleaf => h leaf (List.mem_append_right _ hleaf), two_pow_half D hdeep]

/-- Leaves in the order of their depths. -/
abbrev ByDepth (ls : List (ℕ × α)) : Prop := ls.Pairwise fun a b => a.1 ≤ b.1

/-- Leaves in the order of their depths fill any space that the first of them divides, one after the other. -/
theorem exists_prefix {ls : List (ℕ × α)} {room : ℕ} (hsorted : ByDepth ls) (hroom : room ≤ space D ls)
    (hdivides : ∀ leaf ∈ ls.head?, 2 ^ (D - leaf.1) ∣ room) : ∃ pre post, ls = pre ++ post ∧ space D pre = room := by
  induction ls generalizing room with
  | nil => exact ⟨[], [], rfl, (Nat.le_zero.mp hroom).symm⟩
  | cons leaf ls ih =>
    rcases Nat.eq_zero_or_pos room with rfl | hpos
    · exact ⟨[], leaf :: ls, rfl, rfl⟩
    · have hfirst : 2 ^ (D - leaf.1) ∣ room := hdivides leaf rfl
      have hle : 2 ^ (D - leaf.1) ≤ room := Nat.le_of_dvd hpos hfirst
      rw [space_cons] at hroom
      obtain ⟨pre, post, rfl, hpre⟩ := @ih (room - 2 ^ (D - leaf.1)) (List.pairwise_cons.mp hsorted).2 (by omega) (by
        intro next hnext
        have hdepth := (List.pairwise_cons.mp hsorted).1 next (List.mem_of_mem_head? hnext)
        have hnarrow : 2 ^ (D - next.1) ∣ 2 ^ (D - leaf.1) := Nat.pow_dvd_pow 2 (by omega)
        exact Nat.dvd_sub (hnarrow.trans hfirst) hnarrow)
      refine ⟨leaf :: pre, post, rfl, ?_⟩
      rw [space_cons, hpre]
      omega

theorem eq_nil_of_space {ls : List (ℕ × α)} (h : space D ls = 0) : ls = [] := by
  rcases ls with _ | ⟨leaf, ls⟩
  · rfl
  · rw [space_cons] at h
    have hpos := Nat.two_pow_pos (D - leaf.1)
    omega

theorem exists_leaf {leaf : ℕ × α} {ls : List (ℕ × α)} {d : ℕ} (hleaf : leaf.1 = d)
    (hspace : space D (leaf :: ls) = 2 ^ (D - d)) : ∃ t : CodeTree α, t.leaves d = leaf :: ls := by
  rw [space_cons, hleaf] at hspace
  rw [eq_nil_of_space D (show space D ls = 0 by omega)]
  exact ⟨.leaf leaf.2, by rw [CodeTree.leaves, ← hleaf]⟩

/-- The tree of leaves that fill the space below depth `d`. -/
theorem exists_tree {ls : List (ℕ × α)} {d : ℕ} (hsorted : ByDepth ls) (hdepth : ∀ leaf ∈ ls, d ≤ leaf.1 ∧ leaf.1 ≤ D)
    (hspace : space D ls = 2 ^ (D - d)) : ∃ t : CodeTree α, t.leaves d = ls := by
  induction hn : D - d generalizing d ls with
  | zero =>
    rcases ls with _ | ⟨leaf, ls⟩
    · exact absurd hspace (Nat.two_pow_pos _).ne
    · have hleaf := hdepth leaf List.mem_cons_self
      exact exists_leaf D (by omega) hspace
  | succ n ih =>
    rcases ls with _ | ⟨leaf, ls⟩
    · exact absurd hspace (Nat.two_pow_pos _).ne
    · have hleaf := hdepth leaf List.mem_cons_self
      by_cases hroot : leaf.1 = d
      · exact exists_leaf D hroot hspace
      · have hdeeper : ∀ other ∈ leaf :: ls, d + 1 ≤ other.1 := by
          intro other hother
          rcases List.mem_cons.mp hother with rfl | hmem
          · omega
          · have hle := (List.pairwise_cons.mp hsorted).1 other hmem
            omega
        have hhalf := two_pow_half D (show d < D by omega)
        obtain ⟨pre, post, hls, hpre⟩ := exists_prefix D hsorted (show 2 ^ (D - (d + 1)) ≤ _ by omega) (by
          intro first hfirst
          rw [← Option.some.inj hfirst]
          exact Nat.pow_dvd_pow 2 (by omega))
        rw [hls] at hsorted hdepth hspace hdeeper
        rw [space_append] at hspace
        have hsplit := List.pairwise_append.mp hsorted
        obtain ⟨zero, hzero⟩ := @ih pre (d + 1) hsplit.1 (fun other hother =>
          ⟨hdeeper other (List.mem_append_left _ hother), (hdepth other (List.mem_append_left _ hother)).2⟩) hpre (by omega)
        obtain ⟨one, hone⟩ := @ih post (d + 1) hsplit.2.1 (fun other hother =>
          ⟨hdeeper other (List.mem_append_right _ hother), (hdepth other (List.mem_append_right _ hother)).2⟩)
          (by omega) (by omega)
        exact ⟨.node zero one, by rw [CodeTree.leaves, hzero, hone, hls]⟩

/-! ### Code words -/

/-- The bits of `v`, which has `D` bits, from depth `d` on. -/
def codeBits (v d n : ℕ) : List Bool := (List.range n).map fun k => v.testBit (D - 1 - (d + k))

theorem codeBits_succ (v d n : ℕ) : codeBits D v d (n + 1) = v.testBit (D - 1 - d) :: codeBits D v (d + 1) n := by
  rw [codeBits, List.range_succ_eq_map, List.map_cons, List.map_map, Nat.add_zero]
  congr 1
  apply List.map_congr_left
  intro k _
  simp only [Function.comp_apply]
  congr 1
  omega

theorem testBit_zero_half (q : ℕ) {r k : ℕ} (hr : r < 2 ^ k) : (2 ^ (k + 1) * q + r).testBit k = false := by
  have hlt : r < 2 ^ (k + 1) := hr.trans (Nat.pow_lt_pow_right Nat.one_lt_two (Nat.lt_succ_self k))
  rw [Nat.testBit_two_pow_mul_add q hlt, if_pos (Nat.lt_succ_self k), Nat.testBit_lt_two_pow hr]

theorem testBit_one_half (q : ℕ) {r k : ℕ} (hr : r < 2 ^ k) : (2 ^ (k + 1) * q + (2 ^ k + r)).testBit k = true := by
  have hlt : 2 ^ k + r < 2 ^ (k + 1) := by
    rw [Nat.pow_succ]
    omega
  rw [Nat.testBit_two_pow_mul_add q hlt, if_pos (Nat.lt_succ_self k), Nat.testBit_two_pow_add_eq,
    Nat.testBit_lt_two_pow hr, Bool.not_false]

namespace CodeTree

theorem decode_node_cons (zero one : CodeTree α) (bit : Bool) (bits : List Bool) :
    (node zero one).decode (bit :: bits) = if bit then one.decode bits else zero.decode bits := rfl

/-- The space before a leaf is its code word: it leads to the leaf, and what follows is left. -/
theorem decode_codeBits (t : CodeTree α) {d start : ℕ} {pre post : List (ℕ × α)} {leaf : ℕ × α}
    (hleaves : t.leaves d = pre ++ leaf :: post) (hmax : ∀ other ∈ t.leaves d, other.1 ≤ D) (hstart : 2 ^ (D - d) ∣ start)
    (rest : List Bool) :
    t.decode (codeBits D (start + space D pre) d (leaf.1 - d) ++ rest) = some (leaf.2, rest) := by
  induction t generalizing d start pre post with
  | leaf a =>
    rw [leaves] at hleaves
    obtain ⟨rfl, h⟩ : pre = [] ∧ (d, a) = leaf := by
      rcases pre with _ | ⟨other, pre⟩
      · exact ⟨rfl, (List.cons.inj hleaves).1⟩
      · have hlength := congrArg List.length hleaves
        simp at hlength
    rw [← h, Nat.sub_self]
    rfl
  | node zero one ih₀ ih₁ =>
    rw [leaves] at hleaves hmax
    have hmem : leaf ∈ zero.leaves (d + 1) ++ one.leaves (d + 1) := by
      rw [hleaves]
      simp
    have hdeep : d + 1 ≤ leaf.1 := by
      rcases List.mem_append.mp hmem with h | h
      · exact le_depth h
      · exact le_depth h
    have hbound : leaf.1 ≤ D := hmax leaf hmem
    have hzeroMax := fun other hother => hmax other (List.mem_append_left _ hother)
    have honeMax := fun other hother => hmax other (List.mem_append_right _ hother)
    have hzeroSpace := space_leaves D zero hzeroMax
    have honeSpace := space_leaves D one honeMax
    have hhalf := two_pow_half D (show d < D by omega)
    have hk : D - d = D - 1 - d + 1 := by omega
    have hk' : D - (d + 1) = D - 1 - d := by omega
    obtain ⟨q, rfl⟩ := hstart
    have hnext : leaf.1 - d = leaf.1 - (d + 1) + 1 := by omega
    rw [hnext, codeBits_succ, List.cons_append, decode_node_cons]
    have hwide : 2 ^ (D - (d + 1)) ∣ 2 ^ (D - d) * q := (Nat.pow_dvd_pow 2 (by omega)).mul_right q
    -- the leaf stands in the first half, or the whole first half stands before it
    rcases List.append_eq_append_iff.mp hleaves.symm with ⟨front, hzero, hrest⟩ | ⟨back, rfl, hone⟩
    · rcases front with _ | ⟨first, front⟩
      · rw [List.append_nil] at hzero
        have hbit : (2 ^ (D - d) * q + space D pre).testBit (D - 1 - d) = true := by
          rw [← hzero, hzeroSpace, hk, hk']
          exact testBit_one_half q (Nat.two_pow_pos (D - 1 - d))
        rw [hbit, if_pos rfl]
        have hsub := @ih₁ (d + 1) (2 ^ (D - d) * q + space D pre) [] post hrest.symm honeMax
          (Nat.dvd_add hwide (by rw [← hzero, hzeroSpace]))
        rwa [space_nil, Nat.add_zero] at hsub
      · obtain ⟨rfl, hpost⟩ := List.cons.inj hrest
        rw [hzero, space_append, space_cons] at hzeroSpace
        have hpos := Nat.two_pow_pos (D - leaf.1)
        have hbit : (2 ^ (D - d) * q + space D pre).testBit (D - 1 - d) = false := by
          rw [hk]
          exact testBit_zero_half q (by rw [← hk']; omega)
        rw [hbit, if_neg Bool.false_ne_true]
        exact ih₀ hzero hzeroMax hwide
    · rw [hone, space_append, space_cons] at honeSpace
      have hpos := Nat.two_pow_pos (D - leaf.1)
      have hbit : (2 ^ (D - d) * q + space D (zero.leaves (d + 1) ++ back)).testBit (D - 1 - d) = true := by
        rw [space_append, hzeroSpace, hk, hk']
        exact testBit_one_half q (by rw [← hk']; omega)
      rw [hbit, if_pos rfl, space_append, ← Nat.add_assoc]
      exact ih₁ hone honeMax (Nat.dvd_add hwide (by rw [hzeroSpace]))

end CodeTree

end

end GnuPoc.Lib
