import GnuPoc.Lib.CodeTree
import Mathlib.Data.List.Nodup

/-!
# GnuPoc.Lib.CanonicalCode — the code that a table of lengths stands for

The symbols are taken in the order of their lengths, and of their numbers where these are equal.  A symbol of length
zero has no code.
-/

namespace GnuPoc.Lib

section
variable (lens : List ℕ)

/-- The symbols of length `m` with their lengths. -/
def bucket (m : ℕ) : List (ℕ × ℕ) := lens.zipIdx.filter fun leaf => leaf.1 = m

/-- The symbols of lengths `1` to `k`. -/
def buckets (k : ℕ) : List (ℕ × ℕ) := (List.range' 1 k).flatMap (bucket lens)

/-- The number of symbols of lengths `1` to `k`. -/
def below : ℕ → ℕ
  | 0 => 0
  | k + 1 => below k + lens.count (k + 1)

/-- The code behind those of lengths `1` to `k`, as a number of `k` bits. -/
def firstCode : ℕ → ℕ
  | 0 => 0
  | k + 1 => 2 * firstCode k + lens.count (k + 1)

variable {lens}

theorem mem_bucket {leaf : ℕ × ℕ} {m : ℕ} : leaf ∈ bucket lens m ↔ leaf.1 = m ∧ lens[leaf.2]? = some leaf.1 := by
  rw [bucket, List.mem_filter, List.mem_zipIdx_iff_getElem?, decide_eq_true_iff, and_comm]

theorem mem_buckets {leaf : ℕ × ℕ} {k : ℕ} :
    leaf ∈ buckets lens k ↔ (1 ≤ leaf.1 ∧ leaf.1 ≤ k) ∧ lens[leaf.2]? = some leaf.1 := by
  simp only [buckets, List.mem_flatMap, List.mem_range'_1, mem_bucket]
  constructor
  · rintro ⟨m, hm, rfl, hleaf⟩
    exact ⟨⟨hm.1, by omega⟩, hleaf⟩
  · rintro ⟨hm, hleaf⟩
    exact ⟨leaf.1, ⟨hm.1, by omega⟩, rfl, hleaf⟩

theorem buckets_succ (k : ℕ) : buckets lens (k + 1) = buckets lens k ++ bucket lens (k + 1) := by
  rw [buckets, List.range'_1_concat, List.flatMap_append, List.flatMap_singleton, Nat.add_comm 1 k]
  rfl

theorem buckets_add (k n : ℕ) : buckets lens (k + n) = buckets lens k ++ (List.range' (k + 1) n).flatMap (bucket lens) := by
  rw [buckets, ← List.range'_append_1, List.flatMap_append, Nat.add_comm 1 k]
  rfl

theorem length_filter_zipIdx (m i : ℕ) : ((lens.zipIdx i).filter fun leaf => leaf.1 = m).length = lens.count m := by
  induction lens generalizing i with
  | nil => rfl
  | cons len lens ih =>
    by_cases h : len = m
    · simp [h, ih]
    · simp [h, ih]

theorem length_bucket (m : ℕ) : (bucket lens m).length = lens.count m := length_filter_zipIdx m 0

theorem length_buckets (k : ℕ) : (buckets lens k).length = below lens k := by
  induction k with
  | zero => rfl
  | succ k ih => rw [buckets_succ, List.length_append, ih, length_bucket, below]

theorem space_bucket (D : ℕ) (ls : List (ℕ × ℕ)) {m : ℕ} (h : ∀ leaf ∈ ls, leaf.1 = m) :
    space D ls = ls.length * 2 ^ (D - m) := by
  induction ls with
  | nil => simp
  | cons leaf ls ih =>
    rw [space_cons, ih fun other hother => h other (List.mem_cons_of_mem _ hother), h leaf List.mem_cons_self,
      List.length_cons, Nat.succ_mul, Nat.add_comm]

theorem space_buckets (lens : List ℕ) {D k : ℕ} (hk : k ≤ D) :
    space D (buckets lens k) = firstCode lens k * 2 ^ (D - k) := by
  induction k with
  | zero => simp [buckets, firstCode]
  | succ k ih =>
    have hbucket := space_bucket D (bucket lens (k + 1)) fun leaf hleaf => (mem_bucket.mp hleaf).1
    rw [buckets_succ, space_append, ih (by omega), hbucket, length_bucket, firstCode, two_pow_half D (by omega)]
    ring

theorem byDepth_buckets (k : ℕ) : ByDepth (buckets lens k) := by
  induction k with
  | zero => exact .nil
  | succ k ih =>
    rw [buckets_succ]
    apply List.pairwise_append.mpr
    refine ⟨ih, ?_, ?_⟩
    · apply List.pairwise_of_forall_mem_list
      intro a ha b hb
      rw [(mem_bucket.mp ha).1, (mem_bucket.mp hb).1]
    · intro a ha b hb
      rw [(mem_bucket.mp hb).1]
      exact (mem_buckets.mp ha).1.2.trans (Nat.le_succ k)

theorem nodup_buckets (k : ℕ) : (buckets lens k).Nodup := by
  have hzip : lens.zipIdx.Nodup := by
    apply List.Nodup.of_map Prod.snd
    rw [List.zipIdx_map_snd]
    exact List.nodup_range'
  induction k with
  | zero => exact List.nodup_nil
  | succ k ih =>
    rw [buckets_succ]
    apply List.nodup_append.mpr
    refine ⟨ih, hzip.filter _, ?_⟩
    intro a ha b hb hab
    have hle := (mem_buckets.mp ha).1.2
    rw [hab, (mem_bucket.mp hb).1] at hle
    omega

/-- Where a symbol stands: behind the shorter ones and those of its length before it.  The space before it is its code
word. -/
theorem exists_place (pre post : List ℕ) {m D : ℕ} (hpos : 1 ≤ m) (hmax : m ≤ D) :
    ∃ front back, buckets (pre ++ m :: post) D = front ++ (m, pre.length) :: back ∧
      front.length = below (pre ++ m :: post) (m - 1) + pre.count m ∧
      space D front = (2 * firstCode (pre ++ m :: post) (m - 1) + pre.count m) * 2 ^ (D - m) := by
  obtain ⟨k, rfl⟩ : ∃ k, m = k + 1 := ⟨m - 1, by omega⟩
  obtain ⟨n, rfl⟩ : ∃ n, D = k + (n + 1) := ⟨D - (k + 1), by omega⟩
  have hbucket : bucket (pre ++ (k + 1) :: post) (k + 1) = bucket pre (k + 1) ++
      (k + 1, pre.length) :: ((post.zipIdx (pre.length + 1)).filter fun leaf => leaf.1 = k + 1) := by
    simp [bucket, List.zipIdx_append]
  rw [buckets_add, List.range'_succ, List.flatMap_cons, hbucket, List.append_assoc, List.cons_append]
  refine ⟨buckets (pre ++ (k + 1) :: post) k ++ bucket pre (k + 1), _, (List.append_assoc _ _ _).symm, ?_, ?_⟩
  · rw [List.length_append, length_buckets, length_bucket, Nat.add_sub_cancel]
  · have hspace := space_bucket (k + (n + 1)) (bucket pre (k + 1)) fun leaf hleaf => (mem_bucket.mp hleaf).1
    rw [space_append, space_buckets _ (by omega), hspace, length_bucket, Nat.add_sub_cancel,
      two_pow_half (k + (n + 1)) (show k < k + (n + 1) by omega)]
    ring

theorem below_cons (len k : ℕ) : below (len :: lens) k = below lens k + if 1 ≤ len ∧ len ≤ k then 1 else 0 := by
  induction k with
  | zero =>
    simp [below]
    omega
  | succ k ih =>
    rw [below, ih, below, List.count_cons]
    by_cases h : len = k + 1
    · simp [h]
      omega
    · have hiff : len ≤ k + 1 ↔ len ≤ k := by omega
      simp only [beq_iff_eq, h, if_false, hiff]
      omega

theorem firstCode_cons (len k : ℕ) :
    firstCode (len :: lens) k = firstCode lens k + if 1 ≤ len ∧ len ≤ k then 2 ^ (k - len) else 0 := by
  induction k with
  | zero =>
    simp [firstCode]
    omega
  | succ k ih =>
    rw [firstCode, ih, firstCode, List.count_cons]
    by_cases h : len = k + 1
    · simp [h]
      omega
    · have hiff : len ≤ k + 1 ↔ len ≤ k := by omega
      by_cases hlen : 1 ≤ len ∧ len ≤ k
      · have hpow : 2 ^ (k + 1 - len) = 2 * 2 ^ (k - len) := by
          rw [← Nat.pow_succ']
          congr 1
          omega
        simp only [beq_iff_eq, h, if_false, hiff, hlen, and_self, if_true, hpow]
        ring
      · simp only [beq_iff_eq, h, if_false, hiff, hlen]
        omega

theorem firstCode_eq_sum (D : ℕ) :
    firstCode lens D = (lens.map fun len => if 1 ≤ len ∧ len ≤ D then 2 ^ (D - len) else 0).sum := by
  induction lens with
  | nil => induction D with
    | zero => rfl
    | succ D ih => simpa [firstCode] using ih
  | cons len lens ih => rw [firstCode_cons, ih, List.map_cons, List.sum_cons, Nat.add_comm]

theorem below_le_length (k : ℕ) : below lens k ≤ lens.length := by
  induction lens with
  | nil => induction k with
    | zero => exact le_rfl
    | succ k ih => simpa [below] using ih
  | cons len lens ih =>
    rw [below_cons, List.length_cons]
    split
    · omega
    · omega

theorem below_le_sum (lens : List ℕ) (k : ℕ) : below lens k ≤ lens.sum := by
  induction lens with
  | nil => induction k with
    | zero => exact le_rfl
    | succ k ih => simpa [below] using ih
  | cons len lens ih =>
    rw [below_cons, List.sum_cons]
    split
    · omega
    · omega

theorem lt_below_iff {i k D : ℕ} {leaf : ℕ × ℕ} (hk : k ≤ D) (hleaf : (buckets lens D)[i]? = some leaf) :
    i < below lens k ↔ leaf.1 ≤ k := by
  obtain ⟨n, rfl⟩ : ∃ n, D = k + n := ⟨D - k, by omega⟩
  rw [buckets_add] at hleaf
  by_cases hi : i < below lens k
  · rw [List.getElem?_append_left (by rwa [length_buckets])] at hleaf
    exact iff_of_true hi (mem_buckets.mp (List.mem_of_getElem? hleaf)).1.2
  · rw [List.getElem?_append_right (by rw [length_buckets]; omega)] at hleaf
    obtain ⟨m, hm, hmem⟩ := List.mem_flatMap.mp (List.mem_of_getElem? hleaf)
    have hlen := (mem_bucket.mp hmem).1
    have hge := (List.mem_range'_1.mp hm).1
    exact iff_of_false hi (by omega)

end

end GnuPoc.Lib
