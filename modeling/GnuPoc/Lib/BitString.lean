import Mathlib.Data.Nat.Bitwise
import Mathlib.Data.Nat.Notation

/-!
# GnuPoc.Lib.BitString — numbers as strings of bits

The low bits of a number, the most significant one first.  A string of `m + n` bits is that of the upper part before
that of the lower one, and a string of `n` bits is that of one number below `2 ^ n` only.
-/

namespace GnuPoc.Lib

theorem two_pow_split {a b c : ℕ} (h : a = b + c) : 2 ^ a = 2 ^ b * 2 ^ c := by rw [h, Nat.pow_add]

def bitString (n v : ℕ) : List Bool := (List.range n).map fun i => v.testBit (n - 1 - i)

@[simp] theorem length_bitString (n v : ℕ) : (bitString n v).length = n := by
  rw [bitString, List.length_map, List.length_range]

@[simp] theorem bitString_zero (v : ℕ) : bitString 0 v = [] := rfl

theorem getElem_bitString {n v i : ℕ} (h : i < (bitString n v).length) :
    (bitString n v)[i] = v.testBit (n - 1 - i) := by
  simp [bitString]

/-- Two numbers with the same bits below `n`. -/
theorem bitString_congr {n u v : ℕ} (h : ∀ i < n, u.testBit i = v.testBit i) : bitString n u = bitString n v := by
  apply List.map_congr_left
  intro i hi
  have hlt := List.mem_range.mp hi
  exact h _ (by omega)

theorem bitString_mod {n m : ℕ} (h : n ≤ m) (v : ℕ) : bitString n (v % 2 ^ m) = bitString n v := by
  apply bitString_congr
  intro i hi
  rw [Nat.testBit_mod_two_pow, decide_eq_true (by omega), Bool.true_and]

theorem bitString_add (m n v : ℕ) : bitString (m + n) v = bitString m (v / 2 ^ n) ++ bitString n v := by
  apply List.ext_getElem
  · simp
  · intro i h h'
    rw [length_bitString] at h
    rw [getElem_bitString, List.getElem_append]
    split
    · next hi =>
      rw [length_bitString] at hi
      rw [getElem_bitString, Nat.testBit_div_two_pow]
      congr 1
      omega
    · next hi =>
      rw [length_bitString] at hi
      rw [getElem_bitString]
      congr 1
      rw [length_bitString]
      omega

theorem bitString_mul_add (m n u : ℕ) {v : ℕ} (hv : v < 2 ^ n) :
    bitString (m + n) (u * 2 ^ n + v) = bitString m u ++ bitString n v := by
  have hdiv : (u * 2 ^ n + v) / 2 ^ n = u := by
    rw [Nat.mul_comm, Nat.mul_add_div (Nat.two_pow_pos n), Nat.div_eq_of_lt hv, Nat.add_zero]
  have hmod : (u * 2 ^ n + v) % 2 ^ n = v := by
    rw [Nat.mul_comm, Nat.mul_add_mod, Nat.mod_eq_of_lt hv]
  rw [bitString_add, hdiv, ← bitString_mod le_rfl (u * 2 ^ n + v), hmod]

/-- The number with these bits. -/
def ofBits (bits : List Bool) : ℕ := bits.foldl (fun v b => 2 * v + b.toNat) 0

theorem ofBits_bitString (n v : ℕ) : ofBits (bitString n v) = v % 2 ^ n := by
  induction n generalizing v with
  | zero => rw [bitString_zero, Nat.pow_zero, Nat.mod_one]; rfl
  | succ n ih =>
    have hlast : bitString 1 v = [v.testBit 0] := rfl
    have hbit : (v.testBit 0).toNat = v % 2 := by
      rw [Nat.testBit_zero]
      rcases Nat.mod_two_eq_zero_or_one v with h | h
      · rw [h]
        rfl
      · rw [h]
        rfl
    have hfront : ofBits (bitString n (v / 2 ^ 1)) = v / 2 % 2 ^ n := ih _
    rw [bitString_add, hlast, ofBits, List.foldl_append, ← ofBits, hfront, List.foldl_cons, List.foldl_nil, hbit,
      Nat.pow_succ', Nat.mod_mul, Nat.add_comm]

end GnuPoc.Lib
