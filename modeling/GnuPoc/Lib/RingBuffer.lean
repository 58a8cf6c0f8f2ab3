import Mathlib.Data.Nat.Notation
import Mathlib.Logic.Function.Basic

/-!
# GnuPoc.Lib.RingBuffer — a circular queue

A queue in `n` slots: where the first element is, and how many there are.  Its elements in order are a list,
to which a push appends and from which a pop takes the head.
-/

namespace GnuPoc.Lib

/-- The slots are those below `n`. -/
structure RingBuffer (α : Type) (n : ℕ) where
  slots : ℕ → α
  start : ℕ
  size : ℕ

namespace RingBuffer

variable {α : Type} {n : ℕ}

/-- Element `i` from the first on. -/
def get (r : RingBuffer α n) (i : ℕ) : α := r.slots ((r.start + i) % n)

def push (r : RingBuffer α n) (x : α) : RingBuffer α n :=
  { r with slots := Function.update r.slots ((r.start + r.size) % n) x, size := r.size + 1 }

def pop (r : RingBuffer α n) : RingBuffer α n := { r with start := (r.start + 1) % n, size := r.size - 1 }

def toList (r : RingBuffer α n) : List α := (List.range r.size).map r.get

@[simp] theorem length_toList (r : RingBuffer α n) : r.toList.length = r.size := by
  simp [toList]

variable {r : RingBuffer α n}

theorem toList_of_size_eq_zero (h : r.size = 0) : r.toList = [] := by
  simp [toList, h]

theorem slot_ne {a i j : ℕ} (hij : i < j) (hj : j < n) : (a + i) % n ≠ (a + j) % n := by
  intro h
  have hzero := Nat.sub_mod_eq_zero_of_mod_eq h.symm
  rw [Nat.add_sub_add_left, Nat.mod_eq_of_lt (by omega)] at hzero
  omega

theorem get_push_of_lt {i : ℕ} (x : α) (hi : i < r.size) (h : r.size < n) : (r.push x).get i = r.get i := by
  unfold get push
  exact Function.update_of_ne (slot_ne hi h) x r.slots

theorem get_push_size (r : RingBuffer α n) (x : α) : (r.push x).get r.size = x := by
  unfold get push
  exact Function.update_self _ x r.slots

theorem toList_push (x : α) (h : r.size < n) : (r.push x).toList = r.toList ++ [x] := by
  have hsize : (r.push x).size = r.size + 1 := rfl
  rw [toList, hsize, List.range_succ, List.map_append, List.map_singleton, get_push_size, toList]
  congr 1
  refine List.map_congr_left fun i hi => ?_
  exact get_push_of_lt x (List.mem_range.mp hi) h

theorem get_pop (r : RingBuffer α n) (i : ℕ) : r.pop.get i = r.get (i + 1) := by
  have hslot : (r.pop.start + i) % n = (r.start + (i + 1)) % n := by
    show ((r.start + 1) % n + i) % n = (r.start + (i + 1)) % n
    rw [Nat.mod_add_mod, Nat.add_assoc, Nat.add_comm 1 i]
  exact congrArg r.slots hslot

theorem toList_pop (h : 0 < r.size) : r.toList = r.get 0 :: r.pop.toList := by
  have hsize : r.size = r.pop.size + 1 := (Nat.succ_pred_eq_of_pos h).symm
  rw [toList, hsize, List.range_succ_eq_map, List.map_cons, List.map_map, toList]
  congr 1
  refine List.map_congr_left fun i _ => ?_
  exact (get_pop r i).symm

theorem toList_eq_cons {x : α} {xs : List α} (h : r.toList = x :: xs) :
    0 < r.size ∧ r.get 0 = x ∧ r.pop.toList = xs := by
  have hpos : 0 < r.size := by
    rw [← length_toList, h]
    exact Nat.succ_pos _
  rw [toList_pop hpos, List.cons.injEq] at h
  exact ⟨hpos, h⟩

end RingBuffer

end GnuPoc.Lib
