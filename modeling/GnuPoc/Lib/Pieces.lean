import Mathlib.Algebra.Ring.Nat
import Mathlib.Data.List.Basic
import Mathlib.Data.Nat.Notation

/-!
# GnuPoc.Lib.Pieces — a list that is read from pieces

A reader goes from piece to piece and takes items of each.  It comes to an end at a piece that has none; the piece it
has used up it leaves as an empty one.  Where a read begins and how long it is then decide whether it succeeds.
-/

namespace GnuPoc.Lib

variable {α : Type}

/-- The first `n` items, and the pieces that are left. -/
def takePieces : ℕ → List (List α) → Option (List α × List (List α))
  | _, [] => none
  | n, p :: ps =>
    if p.length = 0 then none
    else if n ≤ p.length then some (p.take n, p.drop n :: ps)
    else (takePieces (n - p.length) ps).map fun r => (p ++ r.1, r.2)

/-- The pieces from the `n`-th item on. -/
def seekPieces : List (List α) → ℕ → List (List α)
  | [], _ => []
  | p :: ps, n => if n ≤ p.length then p.drop n :: ps else seekPieces ps (n - p.length)

theorem takePieces_eq_some : ∀ {n : ℕ} {ps rest : List (List α)} {v : List α}, takePieces n ps = some (v, rest) →
    v = ps.flatten.take n ∧ rest = seekPieces ps n ∧ n ≤ ps.flatten.length
  | _, [], _, _, h => by simp [takePieces] at h
  | n, p :: ps, rest, v, h => by
    rw [takePieces] at h
    split_ifs at h with hzero hle
    · obtain ⟨rfl, rfl⟩ := Prod.mk.inj (Option.some.inj h)
      rw [List.flatten_cons, List.take_append_of_le_length hle, seekPieces, if_pos hle, List.length_append]
      exact ⟨rfl, rfl, by omega⟩
    · obtain ⟨⟨v', rest'⟩, hrest, heq⟩ := Option.map_eq_some_iff.mp h
      obtain ⟨rfl, rfl⟩ := Prod.mk.inj heq
      obtain ⟨rfl, rfl, hlen⟩ := takePieces_eq_some hrest
      have hsplit : n = p.length + (n - p.length) := by omega
      refine ⟨?_, ?_, ?_⟩
      · conv_rhs => rw [List.flatten_cons, hsplit, List.take_length_add_append]
      · rw [seekPieces, if_neg hle]
      · rw [List.flatten_cons, List.length_append]
        omega

theorem seekPieces_zero (ps : List (List α)) : seekPieces ps 0 = ps := by
  cases ps with
  | nil => rfl
  | cons p ps => rw [seekPieces, if_pos (Nat.zero_le _), List.drop_zero]

theorem seekPieces_seekPieces (ps : List (List α)) (s n : ℕ) :
    seekPieces (seekPieces ps s) n = seekPieces ps (s + n) := by
  induction ps generalizing s with
  | nil => rfl
  | cons p ps ih =>
    rw [seekPieces, seekPieces]
    by_cases hs : s ≤ p.length
    · rw [if_pos hs, seekPieces, List.length_drop]
      by_cases hn : s + n ≤ p.length
      · rw [if_pos (show n ≤ p.length - s by omega), if_pos hn, List.drop_drop]
      · rw [if_neg (show ¬ n ≤ p.length - s by omega), if_neg hn, show n - (p.length - s) = s + n - p.length by omega]
    · rw [if_neg hs, if_neg (show ¬ s + n ≤ p.length by omega), ih,
        show s - p.length + n = s + n - p.length by omega]

theorem flatten_seekPieces (ps : List (List α)) (n : ℕ) : (seekPieces ps n).flatten = ps.flatten.drop n := by
  induction ps generalizing n with
  | nil => rw [seekPieces, List.flatten_nil, List.drop_nil]
  | cons p ps ih =>
    rw [seekPieces, List.flatten_cons]
    split
    · next hle => rw [List.flatten_cons, List.drop_append_of_le_length hle]
    · next hgt =>
      have hsplit : n = p.length + (n - p.length) := by omega
      conv_rhs => rw [hsplit, List.drop_length_add_append]
      exact ih _

/-- A read of `n` items from the `s`-th on that does not begin at the end of a piece, with pieces of these lengths, and
does not go across an empty one. -/
def Unbroken (lengths : List ℕ) (s n : ℕ) : Prop :=
  ∀ k, k < lengths.length → (lengths.take (k + 1)).sum ≠ s ∧
    ¬ (s < (lengths.take k).sum ∧ (lengths.take k).sum < s + n ∧ (lengths.take (k + 1)).sum = (lengths.take k).sum)

instance (lengths : List ℕ) (s n : ℕ) : Decidable (Unbroken lengths s n) :=
  inferInstanceAs (Decidable (∀ k, k < lengths.length → _))

theorem unbroken_cons {l s n : ℕ} {lengths : List ℕ} : Unbroken (l :: lengths) s n ↔ l ≠ s ∧
    ∀ k, k < lengths.length → l + (lengths.take (k + 1)).sum ≠ s ∧
      ¬ (s < l + (lengths.take k).sum ∧ l + (lengths.take k).sum < s + n ∧
        (lengths.take (k + 1)).sum = (lengths.take k).sum) := by
  constructor
  · intro h
    refine ⟨?_, fun k hk => ?_⟩
    · have hfirst := (h 0 (Nat.succ_pos _)).1
      simpa using hfirst
    · have hnext := h (k + 1) (Nat.succ_lt_succ hk)
      simpa only [List.take_succ_cons, List.sum_cons, Nat.add_left_cancel_iff] using hnext
  · rintro ⟨hfirst, hnext⟩ k hk
    rcases k with _ | k
    · simp only [List.take_succ_cons, List.take_zero, List.sum_cons, List.sum_nil]
      omega
    · have hk' := hnext k (Nat.lt_of_succ_lt_succ hk)
      simpa only [List.take_succ_cons, List.sum_cons, Nat.add_left_cancel_iff] using hk'

theorem sum_take_le (lengths : List ℕ) (k : ℕ) : (lengths.take k).sum ≤ (lengths.take (k + 1)).sum := by
  rw [List.take_add_one, List.sum_append]
  exact Nat.le_add_right _ _

theorem unbroken_cons_of_lt {l s n : ℕ} {lengths : List ℕ} (hs : s < l) (hn : l < s + n) :
    Unbroken (l :: lengths) s n ↔ Unbroken lengths 0 (s + n - l) := by
  rw [unbroken_cons]
  constructor
  · rintro ⟨-, h⟩ k hk
    obtain ⟨-, hnext⟩ := h k hk
    have hle := sum_take_le lengths k
    refine ⟨fun hzero => hnext ⟨?_, ?_, ?_⟩, fun hbad => hnext ⟨?_, ?_, hbad.2.2⟩⟩
    all_goals omega
  · intro h
    refine ⟨by omega, fun k hk => ⟨by omega, fun hbad => ?_⟩⟩
    obtain ⟨hzero, hnext⟩ := h k hk
    by_cases hpos : 0 < (lengths.take k).sum
    · exact hnext ⟨hpos, by omega, hbad.2.2⟩
    · omega

theorem takePieces_seekPieces_isSome (ps : List (List α)) (s : ℕ) {n : ℕ} (hn : 0 < n)
    (h : s + n ≤ ps.flatten.length) :
    (takePieces n (seekPieces ps s)).isSome ↔ Unbroken (ps.map List.length) s n := by
  induction ps generalizing s n with
  | nil =>
    rw [List.flatten_nil, List.length_nil] at h
    omega
  | cons p ps ih =>
    rw [List.flatten_cons, List.length_append] at h
    rw [seekPieces, List.map_cons]
    obtain hlt | rfl | hgt := Nat.lt_trichotomy s p.length
    · rw [if_pos (Nat.le_of_lt hlt), takePieces, List.length_drop, if_neg (by omega)]
      by_cases hle : s + n ≤ p.length
      · rw [if_pos (by omega), unbroken_cons]
        simp only [Option.isSome_some, true_iff]
        exact ⟨by omega, fun k _ => ⟨by omega, by omega⟩⟩
      · have hrest := ih 0 (show 0 < s + n - p.length by omega) (by omega)
        rw [seekPieces_zero] at hrest
        rw [if_neg (by omega), Option.isSome_map, unbroken_cons_of_lt hlt (by omega), ← hrest,
          show n - (p.length - s) = s + n - p.length by omega]
    · rw [if_pos (Nat.le_refl _), takePieces, List.length_drop, Nat.sub_self, if_pos rfl, unbroken_cons]
      simp
    · rw [if_neg (by omega), ih (s - p.length) hn (by omega), unbroken_cons]
      constructor
      · intro hall
        refine ⟨by omega, fun k hk => ?_⟩
        have hk' := hall k hk
        refine ⟨by omega, fun hbad => hk'.2 ⟨?_, ?_, hbad.2.2⟩⟩
        all_goals omega
      · rintro ⟨-, hall⟩ k hk
        have hk' := hall k hk
        refine ⟨by omega, fun hbad => hk'.2 ⟨?_, ?_, hbad.2.2⟩⟩
        all_goals omega

end GnuPoc.Lib
