import Mathlib.Data.Set.Basic

/-!
# GnuPoc.Lib.Updates — sets that grow and shrink one update at a time

An update says of some elements whether they are in the set from now on, and leaves the others as they are.  What a run
of updates makes of a set depends on the set only at the elements that no update decides.
-/

namespace GnuPoc.Lib

variable {α : Type}

/-- Whether an element is in from now on; `none` leaves it as it is. -/
abbrev Update (α : Type) := α → Option Bool

namespace Update

def apply (u : Update α) (s : Set α) : Set α := {a | u a = some true ∨ u a = none ∧ a ∈ s}

/-- The updates from left to right. -/
def run (us : List (Update α)) (s : Set α) : Set α := us.foldl (fun s u => u.apply s) s

/-- Some update says whether `a` is in. -/
def Decided (us : List (Update α)) (a : α) : Prop := ∃ u ∈ us, u a ≠ none

@[simp] theorem mem_apply {u : Update α} {s : Set α} {a : α} :
    a ∈ u.apply s ↔ u a = some true ∨ u a = none ∧ a ∈ s := Iff.rfl

@[simp] theorem run_nil (s : Set α) : run [] s = s := rfl

@[simp] theorem run_cons (u : Update α) (us : List (Update α)) (s : Set α) : run (u :: us) s = run us (u.apply s) := rfl

variable {us : List (Update α)}

theorem decided_cons {u : Update α} {a : α} : Decided (u :: us) a ↔ u a ≠ none ∨ Decided us a := by
  simp [Decided]

theorem mem_run_of_not_decided {a : α} (h : ¬ Decided us a) (s : Set α) : a ∈ run us s ↔ a ∈ s := by
  induction us generalizing s with
  | nil => simp
  | cons u us ih =>
    rw [decided_cons, not_or, not_not] at h
    rw [run_cons, ih h.2, mem_apply, h.1]
    simp

theorem mem_run_congr {s t : Set α} {a : α} (h : a ∈ s ↔ a ∈ t) : a ∈ run us s ↔ a ∈ run us t := by
  induction us generalizing s t with
  | nil => simpa using h
  | cons u us ih =>
    rw [run_cons, run_cons]
    exact ih (by simp [h])

theorem mem_run_of_decided {a : α} (h : Decided us a) (s t : Set α) : a ∈ run us s ↔ a ∈ run us t := by
  induction us generalizing s t with
  | nil => simp [Decided] at h
  | cons u us ih =>
    rw [run_cons, run_cons]
    by_cases hu : u a = none
    · exact ih ((decided_cons.mp h).resolve_left fun hne => hne hu) _ _
    · exact mem_run_congr (by simp [hu])

/-- Two starting sets lead to the same set when they agree on what no update decides. -/
theorem run_eq_run_iff {s t : Set α} : run us s = run us t ↔ ∀ a, ¬ Decided us a → (a ∈ s ↔ a ∈ t) := by
  constructor
  · intro h a ha
    rw [← mem_run_of_not_decided ha s, ← mem_run_of_not_decided ha t, h]
  · intro h
    ext a
    by_cases ha : Decided us a
    · exact mem_run_of_decided ha s t
    · exact mem_run_congr (h a ha)

end Update

end GnuPoc.Lib
