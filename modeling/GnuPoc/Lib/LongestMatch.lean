import Mathlib.Data.List.Basic
import Mathlib.Data.List.TakeDrop
import Mathlib.Data.Nat.Find
import Mathlib.Logic.Relation

/-!
# GnuPoc.Lib.LongestMatch — matches in a sliding window, and the lazy parse of them

What stands at a position of a list may stand at an earlier position as well, not further back than the window reaches.
The lazy parse takes the longest match of a position unless the next position has one that is as long.
-/

namespace GnuPoc.Lib

/-! ### Matches -/

section
variable {α : Type} (xs : List α)

/-- From `p` on, `k` elements are the same as from `r` on. -/
structure Agrees (r p k : ℕ) : Prop where
  fits : p + k ≤ xs.length
  same : ∀ i < k, xs[r + i]? = xs[p + i]?

/-- The `k` elements at `p` occur in the window before `p`. -/
def Occurs (window p k : ℕ) : Prop := ∃ r < p, p ≤ r + window ∧ Agrees xs r p k

open Classical in
/-- The length of the longest match at `p`. -/
noncomputable def longest (window limit p : ℕ) : ℕ := Nat.findGreatest (Occurs xs window p) limit

variable {xs} {r p k window limit : ℕ}

theorem Agrees.mono (h : Agrees xs r p k) {j : ℕ} (hj : j ≤ k) : Agrees xs r p j :=
  ⟨by have := h.fits; omega, fun i hi => h.same i (Nat.lt_of_lt_of_le hi hj)⟩

theorem Agrees.succ (h : Agrees xs r p k) (hfit : p + k < xs.length) (hsame : xs[r + k]? = xs[p + k]?) :
    Agrees xs r p (k + 1) := by
  refine ⟨hfit, fun i hi => ?_⟩
  rcases Nat.lt_succ_iff_lt_or_eq.mp hi with hlt | rfl
  · exact h.same i hlt
  · exact hsame

theorem Agrees.le_of_ne (h : Agrees xs r p k) {j : ℕ} (hne : xs[r + j]? ≠ xs[p + j]?) : k ≤ j := by
  by_contra hlt
  exact hne (h.same j (Nat.lt_of_not_le hlt))

theorem le_longest (hr : r < p) (hwindow : p ≤ r + window) (hlimit : k ≤ limit) (h : Agrees xs r p k) :
    k ≤ longest xs window limit p := by
  classical
  exact Nat.le_findGreatest hlimit ⟨r, hr, hwindow, h⟩

theorem longest_le : longest xs window limit p ≤ limit := by
  classical
  exact Nat.findGreatest_le limit

theorem longest_occurs (h : 0 < longest xs window limit p) : Occurs xs window p (longest xs window limit p) := by
  classical
  exact Nat.findGreatest_of_ne_zero rfl (Nat.ne_of_gt h)

theorem longest_fits (h : 0 < longest xs window limit p) : p + longest xs window limit p ≤ xs.length := by
  obtain ⟨_, _, _, hsame⟩ := longest_occurs h
  exact hsame.fits

end

/-! ### The lazy parse -/

section
variable (len : ℕ → ℕ) (least : ℕ)

/-- One position of the parse: the length of the match that is pending at the position before it stands beside it. -/
def lazyStep : ℕ × ℕ → ℕ × ℕ
  | (p, pending) =>
    if len p < pending then (p - 1 + pending, 0)
    else if len p < least then (p + 1, pending)
    else (p + 1, len p)

/-- The positions that the parse of what stands before `last` comes to, with what is pending. -/
def LazyReach (last : ℕ) : ℕ × ℕ → ℕ × ℕ → Prop :=
  Relation.ReflTransGen fun s t => s.1 < last ∧ t = lazyStep len least s

variable {len least} {last p pending : ℕ}

theorem lazyStep_take (h : len p < pending) : lazyStep len least (p, pending) = (p - 1 + pending, 0) := if_pos h

theorem lazyStep_skip (h : ¬ len p < pending) (hshort : len p < least) :
    lazyStep len least (p, pending) = (p + 1, pending) :=
  (if_neg h).trans (if_pos hshort)

theorem lazyStep_keep (h : ¬ len p < pending) (hshort : ¬ len p < least) :
    lazyStep len least (p, pending) = (p + 1, len p) :=
  (if_neg h).trans (if_neg hshort)

theorem lazyReach_of_le {s t : ℕ × ℕ} (h : LazyReach len least last s t) (hs : last ≤ s.1) : t = s := by
  induction h using Relation.ReflTransGen.head_induction_on with
  | refl => rfl
  | head hstep _ _ => exact absurd hstep.1 (Nat.not_lt.mpr hs)

/-- A property of all positions to come is one of this position and of those that come after it. -/
theorem forall_lazyReach {s : ℕ × ℕ} (hs : s.1 < last) {P : ℕ × ℕ → Prop} :
    (∀ t, LazyReach len least last s t → P t) ↔
      P s ∧ ∀ t, LazyReach len least last (lazyStep len least s) t → P t := by
  constructor
  · intro h
    exact ⟨h s .refl, fun t ht => h t (Relation.ReflTransGen.head ⟨hs, rfl⟩ ht)⟩
  · rintro ⟨hnow, hlater⟩ t ht
    rcases Relation.ReflTransGen.cases_head ht with rfl | ⟨u, ⟨_, rfl⟩, hu⟩
    · exact hnow
    · exact hlater t hu

end

end GnuPoc.Lib

/-!
### Copies of what has been put out

A copy puts out again what stands some distance back, one element after the other, so that it may run into what it has
put out itself.  A ring of the last elements is enough to do that, as long as no distance is greater than the ring.
-/

namespace GnuPoc.Lib

section
variable {α : Type}

/-! ### Copies -/

/-- `out` with `n` more elements, each of which stands `distance` before itself. -/
def copyBack (distance : ℕ) : ℕ → List α → List α
  | 0, out => out
  | n + 1, out => copyBack distance n (out ++ out[out.length - distance]?.toList)

@[simp] theorem copyBack_zero (distance : ℕ) (out : List α) : copyBack distance 0 out = out := rfl

theorem copyBack_succ {distance : ℕ} (n : ℕ) {out : List α} {a : α} (ha : out[out.length - distance]? = some a) :
    copyBack distance (n + 1) out = copyBack distance n (out ++ [a]) := by
  rw [copyBack, ha]
  rfl

theorem copyBack_add (distance m n : ℕ) (out : List α) :
    copyBack distance (m + n) out = copyBack distance n (copyBack distance m out) := by
  induction m generalizing out with
  | zero => rw [Nat.zero_add, copyBack_zero]
  | succ m ih => rw [Nat.succ_add, copyBack, ih, copyBack]

theorem length_copyBack {distance : ℕ} (hpos : 0 < distance) (n : ℕ) {out : List α} (hle : distance ≤ out.length) :
    (copyBack distance n out).length = out.length + n := by
  induction n generalizing out with
  | zero => rfl
  | succ n ih =>
    have hlt : out.length - distance < out.length := by omega
    rw [copyBack_succ n (List.getElem?_eq_getElem hlt), ih (by rw [List.length_append]; omega), List.length_append,
      List.length_singleton]
    omega

theorem prefix_copyBack (distance n : ℕ) (out : List α) : out <+: copyBack distance n out := by
  induction n generalizing out with
  | zero => exact List.prefix_refl out
  | succ n ih => exact (List.prefix_append _ _).trans (ih _)

theorem copyBack_take {xs : List α} {pos distance n : ℕ} (hpos : 0 < distance) (hle : distance ≤ pos)
    (h : Agrees xs (pos - distance) pos n) : copyBack distance n (xs.take pos) = xs.take (pos + n) := by
  induction n generalizing pos with
  | zero => rfl
  | succ n ih =>
    have hfits := h.fits
    have hlen : (xs.take pos).length = pos := by
      rw [List.length_take]
      omega
    have hat : pos < xs.length := by omega
    have hsame : xs[pos - distance]? = xs[pos]? := h.same 0 (Nat.succ_pos n)
    have hread : (xs.take pos)[(xs.take pos).length - distance]? = some xs[pos] := by
      rw [hlen, List.getElem?_take_of_lt (by omega), hsame, List.getElem?_eq_getElem hat]
    have hnext : Agrees xs (pos + 1 - distance) (pos + 1) n := by
      refine ⟨by omega, fun i hi => ?_⟩
      have hi' := h.same (i + 1) (by omega)
      rwa [show pos - distance + (i + 1) = pos + 1 - distance + i by omega, show pos + (i + 1) = pos + 1 + i by omega]
        at hi'
    have htake : xs.take pos ++ [xs[pos]] = xs.take (pos + 1) := by
      rw [List.take_add_one, List.getElem?_eq_getElem hat, Option.toList_some]
    rw [copyBack_succ n hread, htake, ih (by omega) hnext, show pos + 1 + n = pos + (n + 1) by omega]

/-! ### The ring of the last elements -/

/-- The elements of the ring are the last ones that have been put out, each where its number says. -/
structure Ring (size : ℕ) (ring out : List α) : Prop where
  length : ring.length = size
  holds : ∀ j < out.length, out.length ≤ j + size → ring[j % size]? = out[j]?

theorem Ring.nil {size : ℕ} {ring : List α} (h : ring.length = size) : Ring size ring [] :=
  ⟨h, fun _ hj => absurd hj (Nat.not_lt_zero _)⟩

theorem add_mod_ne (size : ℕ) {j k : ℕ} (hlt : j < k) (hle : k < j + size) : j % size ≠ k % size := by
  intro heq
  have hdvd : size ∣ k - j := Nat.dvd_of_mod_eq_zero (Nat.sub_mod_eq_zero_of_mod_eq heq.symm)
  exact absurd (Nat.le_of_dvd (by omega) hdvd) (by omega)

theorem Ring.push {size : ℕ} {ring out : List α} (h : Ring size ring out) (hsize : 0 < size) (a : α) :
    Ring size (ring.modify (out.length % size) fun _ => a) (out ++ [a]) := by
  constructor
  · rw [List.length_modify]
    exact h.length
  · intro j hj hnear
    rw [List.length_append, List.length_singleton] at hj hnear
    rcases Nat.lt_succ_iff_lt_or_eq.mp hj with hlt | rfl
    · have hne := add_mod_ne size hlt (by omega)
      rw [List.getElem?_modify_ne _ _ (Ne.symm hne), List.getElem?_append_left hlt]
      exact h.holds j hlt (by omega)
    · have hin : out.length % size < ring.length := by
        rw [h.length]
        exact Nat.mod_lt _ hsize
      rw [List.getElem?_modify_eq, List.getElem?_eq_getElem hin, List.getElem?_append_right le_rfl, Nat.sub_self]
      rfl

theorem Ring.back {size : ℕ} {ring out : List α} (h : Ring size ring out) {distance : ℕ} (hpos : 0 < distance)
    (hle : distance ≤ out.length) (hsize : distance ≤ size) :
    ring[(out.length - distance) % size]? = out[out.length - distance]? :=
  h.holds _ (by omega) (by omega)

end

end GnuPoc.Lib
