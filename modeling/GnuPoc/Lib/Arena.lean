import Mathlib.Data.List.Basic
import Mathlib.Order.Basic
import Mathlib.Order.Nat

/-!
# GnuPoc.Lib.Arena — growing arrays named by the order of their allocation

An arena is the memory of a program that allocates arrays, appends to any of them and frees none.
-/

namespace GnuPoc.Lib

/-- Array `i` is the `i`-th one allocated. -/
abbrev Arena (α : Type) := List (List α)

namespace Arena

variable {α : Type}

/-- Allocate an empty array; its name is the arena's length before. -/
def alloc (A : Arena α) : Arena α := A ++ [[]]

/-- Append to an array. -/
def push (A : Arena α) (i : ℕ) (x : α) : Arena α := A.modify i (· ++ [x])

/-- The contents of an array. -/
def get (A : Arena α) (i : ℕ) : List α := A.getD i []

@[simp] theorem length_alloc (A : Arena α) : A.alloc.length = A.length + 1 := by simp [alloc]

@[simp] theorem length_push (A : Arena α) (i : ℕ) (x : α) : (A.push i x).length = A.length := by
  simp [push]

theorem get_alloc (A : Arena α) (i : ℕ) : A.alloc.get i = A.get i := by
  unfold get alloc
  rw [List.getD_eq_getElem?_getD, List.getD_eq_getElem?_getD, List.getElem?_append]
  split
  · rfl
  · next h =>
    rw [List.getElem?_eq_none (by omega : A.length ≤ i)]
    cases hi : i - A.length with
    | zero => rfl
    | succ n => rfl

theorem get_push_self {A : Arena α} {i : ℕ} (h : i < A.length) (x : α) :
    (A.push i x).get i = A.get i ++ [x] := by
  simp [get, push, h]

theorem get_push_of_ne {A : Arena α} {i j : ℕ} (h : j ≠ i) (x : α) : (A.push i x).get j = A.get j := by
  simp [get, push, Ne.symm h]

theorem get_of_le {A : Arena α} {i : ℕ} (h : A.length ≤ i) : A.get i = [] := by
  simp [get, h]

/-- `A'` came from `A` by allocating, and by appending to arrays with `p` only. -/
structure Changes (p : ℕ → Prop) (A A' : Arena α) : Prop where
  length_le : A.length ≤ A'.length
  get_eq : ∀ i, i < A.length → ¬ p i → A'.get i = A.get i

variable {p q : ℕ → Prop} {A B C : Arena α}

theorem Changes.refl (p : ℕ → Prop) (A : Arena α) : Changes p A A := ⟨le_rfl, fun _ _ _ => rfl⟩

theorem Changes.trans (h : Changes p A B) (h' : Changes p B C) : Changes p A C :=
  ⟨h.length_le.trans h'.length_le, fun i hA hi =>
    (h'.get_eq i (lt_of_lt_of_le hA h.length_le) hi).trans (h.get_eq i hA hi)⟩

/-- Only what happens to the arrays of `A` matters. -/
theorem Changes.mono (h : Changes p A B) (hpq : ∀ i, i < A.length → p i → q i) : Changes q A B :=
  ⟨h.length_le, fun i hA hi => h.get_eq i hA fun hp => hi (hpq i hA hp)⟩

theorem changes_alloc (p : ℕ → Prop) (A : Arena α) : Changes p A A.alloc :=
  ⟨by simp, fun i _ _ => get_alloc A i⟩

theorem Changes.trans_alloc (h : Changes p A A.alloc) (h' : Changes (· = A.length) A.alloc B) :
    Changes p A B := by
  refine ⟨h.length_le.trans h'.length_le, fun i hA hi => ?_⟩
  rw [h'.get_eq i (lt_of_lt_of_le hA h.length_le) (Nat.ne_of_lt hA), h.get_eq i hA hi]

theorem changes_push {i : ℕ} (A : Arena α) (h : p i) (x : α) : Changes p A (A.push i x) := by
  refine ⟨by simp, fun j _ hj => get_push_of_ne ?_ x⟩
  rintro rfl
  exact hj h

end Arena

end GnuPoc.Lib
