import Mathlib.Data.List.Basic

/-!
# GnuPoc.Lib.Output — calls that write before they end

A call has written some items when it returns a value, or stops.
-/

namespace GnuPoc.Lib

structure Output (β ε α : Type) where
  written : List β
  ends : Except ε α

namespace Output

variable {β ε α γ : Type}

def emit (items : List β) : Output β ε Unit := ⟨items, .ok ()⟩

def stop (e : ε) : Output β ε α := ⟨[], .error e⟩

/-- What the second call writes stands behind what the first one has written. -/
protected def bind (x : Output β ε α) (f : α → Output β ε γ) : Output β ε γ :=
  match x.ends with
  | .ok a => ⟨x.written ++ (f a).written, (f a).ends⟩
  | .error e => ⟨x.written, .error e⟩

instance : Monad (Output β ε) where
  pure a := ⟨[], .ok a⟩
  bind := Output.bind

theorem bind_of_ok {x : Output β ε α} {a : α} (h : x.ends = .ok a) (f : α → Output β ε γ) :
    x >>= f = ⟨x.written ++ (f a).written, (f a).ends⟩ := by
  simp only [bind, Output.bind, h]

theorem bind_of_error {x : Output β ε α} {e : ε} (h : x.ends = .error e) (f : α → Output β ε γ) :
    x >>= f = ⟨x.written, .error e⟩ := by
  simp only [bind, Output.bind, h]

@[simp] theorem stop_bind (e : ε) (f : α → Output β ε γ) : stop e >>= f = stop e := rfl

instance : LawfulMonad (Output β ε) := LawfulMonad.mk' _
  (fun x => by
    rcases x with ⟨written, e | a⟩
    · rfl
    · simp [Functor.map, Output.bind])
  (fun a f => by simp [pure, bind, Output.bind])
  (fun x f g => by
    rcases x with ⟨written, e | a⟩
    · rfl
    · rcases hf : f a with ⟨written', e | c⟩
      · simp [bind, Output.bind, hf]
      · simp [bind, Output.bind, hf])

theorem bind_congr_of_ok {x : Output β ε α} {f g : α → Output β ε γ} (h : ∀ a, x.ends = .ok a → f a = g a) :
    x >>= f = x >>= g := by
  rcases hx : x.ends with e | a
  · rw [bind_of_error hx, bind_of_error hx]
  · rw [bind_of_ok hx, bind_of_ok hx, h a hx]

end Output

end GnuPoc.Lib
