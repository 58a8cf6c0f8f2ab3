import Mathlib.Tactic.Common

/-!
# GnuPoc.Lib.Regions — regions of an address space, written in a row

A region is a list of cells with the address of the first.  Regions in ascending order without overlap
can be written one behind the other, the gaps filled up, so that a cell stands as far behind the start
as its address is above the base.
-/

namespace GnuPoc.Lib

variable {α : Type}

structure Region (α : Type) where
  start : ℕ
  cells : List α
  deriving DecidableEq

def Region.stop (r : Region α) : ℕ := r.start + r.cells.length

/-- The region covers an address. -/
def Region.Covers (r : Region α) (a : ℕ) : Prop := r.start ≤ a ∧ a < r.stop

/-- The regions ascend from `base` on without overlap. -/
def Ascending : ℕ → List (Region α) → Prop
  | _, [] => True
  | base, r :: rs => base ≤ r.start ∧ Ascending r.stop rs

instance decidableAscending : (base : ℕ) → (rs : List (Region α)) → Decidable (Ascending base rs)
  | _, [] => inferInstanceAs (Decidable True)
  | base, r :: rs =>
    have := decidableAscending r.stop rs
    inferInstanceAs (Decidable (base ≤ r.start ∧ Ascending r.stop rs))

/-- The address behind the last region. -/
def regionsEnd : ℕ → List (Region α) → ℕ
  | base, [] => base
  | _, r :: rs => regionsEnd r.stop rs

/-- The regions in a row, with `fill` in the gaps. -/
def spread (fill : α) : ℕ → List (Region α) → List α
  | _, [] => []
  | base, r :: rs => List.replicate (r.start - base) fill ++ r.cells ++ spread fill r.stop rs

theorem Ascending.le_start {base : ℕ} {rs : List (Region α)} (h : Ascending base rs) :
    ∀ r ∈ rs, base ≤ r.start := by
  induction rs generalizing base with
  | nil =>
    intro r hr
    exact absurd hr List.not_mem_nil
  | cons r rs ih =>
    obtain ⟨hstart, hrest⟩ := h
    intro r' hr'
    rcases List.mem_cons.mp hr' with rfl | hr'
    · exact hstart
    · have hstop := ih hrest r' hr'
      unfold Region.stop at hstop
      omega

theorem length_spread (fill : α) {base : ℕ} {rs : List (Region α)} (h : Ascending base rs) :
    base + (spread fill base rs).length = regionsEnd base rs := by
  induction rs generalizing base with
  | nil => rfl
  | cons r rs ih =>
    obtain ⟨hstart, hrest⟩ := h
    have hlen := ih hrest
    unfold Region.stop at hlen
    rw [spread, List.length_append, List.length_append, List.length_replicate, regionsEnd]
    unfold Region.stop
    omega

theorem getElem?_spread_of_mem (fill : α) {base : ℕ} {rs : List (Region α)} (h : Ascending base rs) :
    ∀ r ∈ rs, ∀ k < r.cells.length, (spread fill base rs)[r.start - base + k]? = r.cells[k]? := by
  induction rs generalizing base with
  | nil =>
    intro r hr
    exact absurd hr List.not_mem_nil
  | cons r rs ih =>
    obtain ⟨hstart, hrest⟩ := h
    intro r' hr' k hk
    rcases List.mem_cons.mp hr' with rfl | hr'
    · rw [spread, List.getElem?_append_left (by simp; omega),
        List.getElem?_append_right (by simp), List.length_replicate]
      congr 1
      omega
    · have hstop := hrest.le_start r' hr'
      have hcell := ih hrest r' hr' k hk
      unfold Region.stop at hstop
      rw [spread, List.getElem?_append_right (by simp; omega), ← hcell]
      congr 1
      rw [List.length_append, List.length_replicate]
      unfold Region.stop
      omega

theorem getElem?_spread_gap (fill : α) {base : ℕ} {rs : List (Region α)} (h : Ascending base rs) {a : ℕ}
    (hbase : base ≤ a) (hend : a < regionsEnd base rs) (hgap : ∀ r ∈ rs, ¬ r.Covers a) :
    (spread fill base rs)[a - base]? = some fill := by
  induction rs generalizing base with
  | nil =>
    simp only [regionsEnd] at hend
    omega
  | cons r rs ih =>
    obtain ⟨hstart, hrest⟩ := h
    have hr := hgap r List.mem_cons_self
    unfold Region.Covers Region.stop at hr
    by_cases ha : a < r.start
    · rw [spread, List.append_assoc, List.getElem?_append_left (by simp; omega), List.getElem?_replicate,
        if_pos (by omega)]
    · have hcell := ih hrest (by unfold Region.stop; omega) hend fun r' hr' => hgap r' (List.mem_cons_of_mem _ hr')
      rw [spread, List.getElem?_append_right (by simp; omega), ← hcell]
      congr 1
      rw [List.length_append, List.length_replicate]
      unfold Region.stop
      omega

end GnuPoc.Lib
