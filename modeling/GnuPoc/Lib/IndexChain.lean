import Mathlib.Data.List.Basic

/-!
# GnuPoc.Lib.IndexChain — linked lists of indices

The entries of a table are linked by index, and `0` ends a list.  A walk exists when the links lead to `0` after finitely
many steps; an entry put in front of a walk does not change the walks that do not visit it.
-/

namespace GnuPoc.Lib

/-- From `first`, the links visit `ys` and then reach `0`. -/
inductive Walk (next : ℕ → Option ℕ) : ℕ → List ℕ → Prop
  | nil : Walk next 0 []
  | cons {y z : ℕ} {ys : List ℕ} (hpos : y ≠ 0) (hlink : next y = some z) (hrest : Walk next z ys) :
    Walk next y (y :: ys)

namespace Walk

theorem congr {next next' : ℕ → Option ℕ} {first : ℕ} {ys : List ℕ} (h : Walk next first ys)
    (hsame : ∀ y ∈ ys, next' y = next y) : Walk next' first ys := by
  induction h with
  | nil => exact .nil
  | cons hpos hlink _ ih =>
    exact .cons hpos ((hsame _ List.mem_cons_self).trans hlink) (ih fun y hy => hsame y (List.mem_cons_of_mem _ hy))

end Walk

end GnuPoc.Lib
