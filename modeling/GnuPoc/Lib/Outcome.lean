import Mathlib.Data.List.Basic

/-!
# GnuPoc.Lib.Outcome — runs that may stop

A run gives its result, or stops: with an exit status, where the language leaves open what happens, or
because the model's fuel is used up.
-/

namespace GnuPoc.Lib

theorem bind_eq_ok {ε α β : Type} {x : Except ε α} {f : α → Except ε β} {b : β} :
    (x >>= f) = .ok b ↔ ∃ a, x = .ok a ∧ f a = .ok b := by
  cases x with
  | error e => simp [bind, Except.bind]
  | ok a => simp [bind, Except.bind]

/-- A loop over a list ends with a result, and `R` holds of each item, exactly when `P` does, where this is so for one
item from any state. -/
theorem foldlM_ok_iff {ε σ α : Type} {f : σ → α → Except ε σ} {P R : α → Prop} {l : List α}
    (h : ∀ a ∈ l, ∀ s, ((∃ s', f s a = .ok s') ∧ R a) ↔ P a) (s : σ) :
    ((∃ s', l.foldlM f s = .ok s') ∧ ∀ a ∈ l, R a) ↔ ∀ a ∈ l, P a := by
  induction l generalizing s with
  | nil => exact iff_of_true ⟨⟨s, rfl⟩, nofun⟩ nofun
  | cons a l ih =>
    obtain ⟨ha, hl⟩ := List.forall_mem_cons.mp h
    rw [List.forall_mem_cons, List.forall_mem_cons, List.foldlM_cons, ← ha s]
    constructor
    · rintro ⟨⟨s', hrun⟩, hR, hrest⟩
      obtain ⟨s₁, h1, hrun⟩ := bind_eq_ok.mp hrun
      exact ⟨⟨⟨s₁, h1⟩, hR⟩, (ih hl s₁).mp ⟨⟨s', hrun⟩, hrest⟩⟩
    · rintro ⟨⟨⟨s₁, h1⟩, hR⟩, hP⟩
      obtain ⟨⟨s', hrun⟩, hrest⟩ := (ih hl s₁).mpr hP
      exact ⟨⟨s', bind_eq_ok.mpr ⟨s₁, h1, hrun⟩⟩, hR, hrest⟩

inductive Halt
  | exits (status : ℕ)
  | undefined
  | outOfFuel
  deriving DecidableEq, Repr

abbrev Outcome (α : Type) := Except Halt α

section
variable {α β : Type}

@[simp] theorem outcome_ok_bind (a : α) (f : α → Outcome β) : ((Except.ok a : Outcome α) >>= f) = f a := rfl

@[simp] theorem outcome_error_bind (e : Halt) (f : α → Outcome β) :
    ((Except.error e : Outcome α) >>= f) = Except.error e := rfl

end

end GnuPoc.Lib
