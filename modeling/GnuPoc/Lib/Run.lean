import Mathlib.Logic.Basic

/-!
# GnuPoc.Lib.Run — runs that change a state and may stop

Where a run stops, the state it has reached remains.  A relation between states that is reflexive and transitive
holds over a run when it holds over each of its steps.
-/

namespace GnuPoc.Lib

/-- A run on states `σ` with a result `α`, or a reason `ε` to stop. -/
def Run (ε σ α : Type) := σ → Except ε α × σ

namespace Run

section
variable {ε σ α β : Type}

instance : Monad (Run ε σ) where
  pure a := fun s => (.ok a, s)
  bind m f := fun s =>
    match m s with
    | (.ok a, s) => f a s
    | (.error e, s) => (.error e, s)

def stop (e : ε) : Run ε σ α := fun s => (.error e, s)

/-- What is read of the state. -/
def read (f : σ → α) : Run ε σ α := fun s => (.ok (f s), s)

def update (f : σ → σ) : Run ε σ Unit := fun s => (.ok (), f s)

/-- The first run in the states that satisfy `p`, and else the second one. -/
def branch (p : σ → Prop) [DecidablePred p] (m m' : Run ε σ α) : Run ε σ α := fun s =>
  if p s then m s else m' s

/-- One run for every item, from the first to the last. -/
def each (f : β → Run ε σ Unit) : List β → Run ε σ Unit
  | [] => pure ()
  | b :: bs => do
    f b
    each f bs

@[simp] theorem pure_apply (a : α) (s : σ) : (pure a : Run ε σ α) s = (.ok a, s) := rfl

@[simp] theorem stop_apply (e : ε) (s : σ) : (stop e : Run ε σ α) s = (.error e, s) := rfl

@[simp] theorem read_apply (f : σ → α) (s : σ) : (read f : Run ε σ α) s = (.ok (f s), s) := rfl

@[simp] theorem update_apply (f : σ → σ) (s : σ) : (update f : Run ε σ Unit) s = (.ok (), f s) := rfl

theorem branch_pos {p : σ → Prop} [DecidablePred p] {s : σ} (h : p s) (m m' : Run ε σ α) :
    branch p m m' s = m s := if_pos h

theorem branch_neg {p : σ → Prop} [DecidablePred p] {s : σ} (h : ¬ p s) (m m' : Run ε σ α) :
    branch p m m' s = m' s := if_neg h

theorem bind_apply (m : Run ε σ α) (f : α → Run ε σ β) (s : σ) : (m >>= f) s =
    match m s with
    | (.ok a, s) => f a s
    | (.error e, s) => (.error e, s) := rfl

theorem bind_ok {m : Run ε σ α} {f : α → Run ε σ β} {s s' : σ} {a : α} (h : m s = (.ok a, s')) :
    (m >>= f) s = f a s' := by
  rw [bind_apply, h]

theorem bind_error {m : Run ε σ α} {f : α → Run ε σ β} {s s' : σ} {e : ε} (h : m s = (.error e, s')) :
    (m >>= f) s = (.error e, s') := by
  rw [bind_apply, h]

theorem eq_ok {m : Run ε σ α} {s : σ} {a : α} (h : (m s).1 = .ok a) : m s = (.ok a, (m s).2) := Prod.ext h rfl

theorem ok_of_bind {m : Run ε σ α} {f : α → Run ε σ β} {s s' : σ} {b : β} (h : (m >>= f) s = (.ok b, s')) :
    ∃ a s₁, m s = (.ok a, s₁) ∧ f a s₁ = (.ok b, s') := by
  rw [bind_apply] at h
  rcases hm : m s with ⟨e | a, s₁⟩
  · rw [hm] at h
    simp at h
  · rw [hm] at h
    exact ⟨a, s₁, rfl, h⟩

theorem bind_assoc {γ : Type} (m : Run ε σ α) (f : α → Run ε σ β) (g : β → Run ε σ γ) :
    (m >>= f >>= g) = m >>= fun a => f a >>= g := by
  funext s
  rw [bind_apply, bind_apply, bind_apply]
  rcases m s with ⟨e | a, s'⟩
  · rfl
  · rfl

theorem pure_bind (a : α) (f : α → Run ε σ β) : (pure a >>= f) = f a := rfl

theorem bind_congr' {m m' : Run ε σ α} {f f' : α → Run ε σ β} (hm : m = m') (hf : ∀ a, f a = f' a) :
    (m >>= f) = (m' >>= f') := by
  rw [hm, funext hf]

theorem each_congr {f f' : β → Run ε σ Unit} : ∀ {bs : List β}, (∀ b ∈ bs, f b = f' b) → each f bs = each f' bs
  | [], _ => rfl
  | b :: _, h => by
    rw [each, each, h b List.mem_cons_self, each_congr fun x hx => h x (List.mem_cons_of_mem _ hx)]

end

/-! ### Relations that hold over a run -/

/-- Between the state before a run and the state it leaves. -/
def Keeps {ε σ α : Type} (R : σ → σ → Prop) (m : Run ε σ α) : Prop := ∀ s, R s (m s).2

section
variable {ε σ α β : Type} {R : σ → σ → Prop}

theorem Keeps.pure (hrefl : ∀ s, R s s) (a : α) : Keeps R (Pure.pure a : Run ε σ α) := hrefl

theorem Keeps.stop (hrefl : ∀ s, R s s) (e : ε) : Keeps R (stop e : Run ε σ α) := hrefl

theorem Keeps.read (hrefl : ∀ s, R s s) (f : σ → α) : Keeps R (read f : Run ε σ α) := hrefl

theorem Keeps.update {f : σ → σ} (h : ∀ s, R s (f s)) : Keeps R (update f : Run ε σ Unit) := h

theorem Keeps.bind (htrans : ∀ a b c, R a b → R b c → R a c) {m : Run ε σ α} {f : α → Run ε σ β} (hm : Keeps R m)
    (hf : ∀ a, Keeps R (f a)) : Keeps R (m >>= f) := by
  intro s
  have hfirst := hm s
  rw [bind_apply]
  rcases h : m s with ⟨e | a, s₁⟩
  · rw [h] at hfirst
    exact hfirst
  · rw [h] at hfirst
    exact htrans _ _ _ hfirst (hf a s₁)

theorem Keeps.ite {c : Prop} [Decidable c] {m m' : Run ε σ α} (h : c → Keeps R m) (h' : ¬ c → Keeps R m') :
    Keeps R (if c then m else m') := by
  split
  · next hc => exact h hc
  · next hc => exact h' hc

theorem Keeps.branch {p : σ → Prop} [DecidablePred p] {m m' : Run ε σ α} (h : Keeps R m) (h' : Keeps R m') :
    Keeps R (branch p m m') := by
  intro s
  rw [Run.branch]
  split
  · exact h s
  · exact h' s

theorem Keeps.each (hrefl : ∀ s, R s s) (htrans : ∀ a b c, R a b → R b c → R a c) {f : β → Run ε σ Unit} {bs : List β}
    (h : ∀ b ∈ bs, Keeps R (f b)) : Keeps R (Run.each f bs) := by
  induction bs with
  | nil => exact hrefl
  | cons b bs ih =>
    exact Keeps.bind htrans (h b List.mem_cons_self) fun _ => ih fun x hx => h x (List.mem_cons_of_mem _ hx)

end

/-! ### Two runs -/

/-- What holds where a run has ended well. -/
def After {ε σ α : Type} (m : Run ε σ α) (Q : α → σ → Prop) (s : σ) : Prop := ∀ a s', m s = (.ok a, s') → Q a s'

/-- Two runs that do the same from the states of `P`, which they do not leave, and whose results satisfy `Q`. -/
def Agree {ε σ α : Type} (P : σ → Prop) (Q : α → Prop) (m m' : Run ε σ α) : Prop :=
  ∀ s, P s → m s = m' s ∧ P (m s).2 ∧ ∀ a, (m s).1 = .ok a → Q a

section
variable {ε σ α β : Type}

theorem bind_congr_at {m m' : Run ε σ α} {f g : α → Run ε σ β} {s : σ} (hm : m s = m' s)
    (hf : After m (fun a s' => f a s' = g a s') s) : (m >>= f) s = (m' >>= g) s := by
  rw [bind_apply, bind_apply, ← hm]
  rcases h : m s with ⟨e | a, s'⟩
  · rfl
  · exact hf a s' h

/-- What holds of every item when its turn comes. -/
def Turns {ε σ β : Type} (f : β → Run ε σ Unit) (P : β → σ → Prop) : List β → σ → Prop
  | [], _ => True
  | b :: bs, s => P b s ∧ After (f b) (fun _ => Turns f P bs) s

theorem each_congr_at {f f' : β → Run ε σ Unit} {P : β → σ → Prop} (hf : ∀ b s, P b s → f' b s = f b s) :
    ∀ {bs : List β} {s : σ}, Turns f P bs s → each f' bs s = each f bs s
  | [], _, _ => rfl
  | b :: _, s, h => by
    have hsame := hf b s h.1
    rw [each, each]
    refine bind_congr_at hsame fun _ s' hs' => ?_
    rw [hsame] at hs'
    exact each_congr_at hf (h.2 _ s' hs')

theorem Turns.of_forall {f : β → Run ε σ Unit} {P : β → σ → Prop} : ∀ {bs : List β}, (∀ b ∈ bs, ∀ s, P b s) →
    ∀ s, Turns f P bs s
  | [], _, _ => trivial
  | b :: _, h, s => ⟨h b List.mem_cons_self s, fun _ s' _ => of_forall (fun b hb => h b (List.mem_cons_of_mem _ hb)) s'⟩

theorem Turns.imp {f : β → Run ε σ Unit} {P P' : β → σ → Prop} : ∀ {bs : List β} {s : σ},
    (∀ b ∈ bs, ∀ s, P b s → P' b s) → Turns f P bs s → Turns f P' bs s
  | [], _, _, _ => trivial
  | b :: _, s, hP, h => ⟨hP b List.mem_cons_self s h.1, fun a s' hok =>
      (h.2 a s' hok).imp fun x hx => hP x (List.mem_cons_of_mem _ hx)⟩

/-- What does not depend on the state holds of all items when the last of them is done. -/
theorem Turns.forall_of_ok {f : β → Run ε σ Unit} {p : β → Prop} : ∀ {bs : List β} {s s' : σ},
    Turns f (fun b _ => p b) bs s → each f bs s = (.ok (), s') → ∀ b ∈ bs, p b
  | [], _, _, _, _ => fun _ hb => absurd hb List.not_mem_nil
  | _ :: _, _, _, h, hok => by
    obtain ⟨_, _, hfirst, hrest⟩ := ok_of_bind hok
    exact List.forall_mem_cons.mpr ⟨h.1, (h.2 _ _ hfirst).forall_of_ok hrest⟩

variable {P : σ → Prop} {Q : α → Prop} {Q' : β → Prop}

theorem Agree.pure {a : α} (h : Q a) : Agree P Q (Pure.pure a : Run ε σ α) (Pure.pure a) :=
  fun _ hs => ⟨rfl, hs, fun _ ha => Except.ok.inj ha ▸ h⟩

theorem Agree.stop (e : ε) : Agree P Q (stop e : Run ε σ α) (Run.stop e) :=
  fun _ hs => ⟨rfl, hs, fun _ ha => by simp at ha⟩

theorem Agree.bind {m m' : Run ε σ α} {f f' : α → Run ε σ β} (hm : Agree P Q m m')
    (hf : ∀ a, Q a → Agree P Q' (f a) (f' a)) : Agree P Q' (m >>= f) (m' >>= f') := by
  intro s hs
  obtain ⟨heq, hP, hQ⟩ := hm s hs
  rw [bind_apply, bind_apply, ← heq]
  rcases h : m s with ⟨e | a, s'⟩
  · rw [h] at hP
    exact ⟨rfl, hP, fun _ ha => by simp at ha⟩
  · rw [h] at hP hQ
    exact hf a (hQ a rfl) s' hP

end

/-! ### Invariants that a run does not leave -/

/-- `I` holds of the state that a run leaves, and `Q` as well where it has ended well. -/
structure Leaves {ε σ α : Type} (I : σ → Prop) (Q : α → σ → Prop) (m : Run ε σ α) (s : σ) : Prop where
  state : I (m s).2
  result : After m Q s

section
variable {ε σ α β : Type} {I : σ → Prop} {Q : α → σ → Prop} {Q' : β → σ → Prop} {s : σ}

theorem Leaves.pure {a : α} (hI : I s) (hQ : Q a s) : Leaves I Q (Pure.pure a : Run ε σ α) s where
  state := hI
  result := by
    intro b s' h
    simp only [pure_apply, Prod.mk.injEq, Except.ok.injEq] at h
    rwa [← h.1, ← h.2]

theorem Leaves.stop (hI : I s) (e : ε) : Leaves I Q (stop e : Run ε σ α) s where
  state := hI
  result := by
    intro b s' h
    simp at h

theorem Leaves.read (hI : I s) (f : σ → α) : Leaves I (fun a s' => a = f s ∧ s' = s) (read f : Run ε σ α) s where
  state := hI
  result := by
    intro b s' h
    simp only [read_apply, Prod.mk.injEq, Except.ok.injEq] at h
    exact ⟨h.1.symm, h.2.symm⟩

theorem Leaves.bind {m : Run ε σ α} {f : α → Run ε σ β} (hm : Leaves I Q m s)
    (hf : ∀ a s', I s' → Q a s' → Leaves I Q' (f a) s') : Leaves I Q' (m >>= f) s := by
  have hI := hm.state
  have hQ := hm.result
  constructor
  · rw [bind_apply]
    rcases h : m s with ⟨e | a, s'⟩
    · rwa [h] at hI
    · rw [h] at hI
      exact (hf a s' hI (hQ a s' h)).state
  · intro b s'' h
    obtain ⟨a, s', hfirst, hrest⟩ := ok_of_bind h
    rw [hfirst] at hI
    exact (hf a s' hI (hQ a s' hfirst)).result b s'' hrest

theorem Leaves.of_eq {m m' : Run ε σ α} {s' : σ} (h : m s = m' s') (hm : Leaves I Q m' s') : Leaves I Q m s where
  state := by
    rw [h]
    exact hm.state
  result := fun a s'' hok => hm.result a s'' (h ▸ hok)

theorem Leaves.of_keeps {m : Run ε σ α} (h : Keeps (fun s s' => I s → I s') m) (hI : I s) :
    Leaves I (fun _ _ => True) m s := ⟨h s hI, fun _ _ _ => trivial⟩

theorem Leaves.each {f : β → Run ε σ Unit} {P : β → σ → Prop} (hf : ∀ b s, I s → P b s → I (f b s).2) :
    ∀ {bs : List β} {s : σ}, I s → Turns f P bs s → Leaves I (fun _ _ => True) (Run.each f bs) s
  | [], _, hI, _ => .pure hI trivial
  | b :: _, s, hI, h => by
    have hfirst : Leaves I (fun _ s' => Turns f P _ s') (f b) s := ⟨hf b s hI h.1, h.2⟩
    exact hfirst.bind fun _ _ hI hrest => Leaves.each hf hI hrest

theorem After.bind {m : Run ε σ α} {f : α → Run ε σ β} (h : After (m >>= f) Q' s) :
    After m (fun a s' => After (f a) Q' s') s :=
  fun _ _ hm b s'' hf => h b s'' ((bind_ok hm).trans hf)

end

/-! ### Runs with a known result -/

/-- From the states of `P`, which it does not leave, the run ends with the result `a`. -/
def Returns {ε σ α : Type} (P : σ → Prop) (m : Run ε σ α) (a : α) : Prop := ∀ s, P s → ∃ s', m s = (.ok a, s') ∧ P s'

section
variable {ε σ α β : Type} {P : σ → Prop}

theorem Returns.pure (a : α) : Returns P (Pure.pure a : Run ε σ α) a := fun s hs => ⟨s, rfl, hs⟩

theorem Returns.read {f : σ → α} {a : α} (h : ∀ s, P s → f s = a) : Returns P (read f : Run ε σ α) a := by
  intro s hs
  refine ⟨s, ?_, hs⟩
  rw [read_apply, h s hs]

theorem Returns.bind {m : Run ε σ α} {f : α → Run ε σ β} {a : α} {b : β} (hm : Returns P m a)
    (hf : Returns P (f a) b) : Returns P (m >>= f) b := by
  intro s hs
  obtain ⟨s₁, h₁, hs₁⟩ := hm s hs
  obtain ⟨s₂, h₂, hs₂⟩ := hf s₁ hs₁
  exact ⟨s₂, (bind_ok h₁).trans h₂, hs₂⟩

end

end Run

end GnuPoc.Lib

/-!
### The same run from two states

A run from one state is matched by a run from another one: both stop for the same reason, or both end with the
same result in states that stand in a relation again.  Where the first run stops for a reason of `E`, nothing
is said of the second one.
-/

namespace GnuPoc.Lib.Run

/-- What `m` does from `s` is what `m'` does from `s'`. -/
structure Matches {ε σ α : Type} (E : ε → Prop) (R : σ → σ → Prop) (m m' : Run ε σ α) (s s' : σ) : Prop where
  ok : ∀ a s₁, m s = (.ok a, s₁) → ∃ s₁', m' s' = (.ok a, s₁') ∧ R s₁ s₁'
  error : ∀ e s₁, m s = (.error e, s₁) → E e ∨ ∃ s₁', m' s' = (.error e, s₁')

section
variable {ε σ α β : Type} {E : ε → Prop} {R Q : σ → σ → Prop} {m m' : Run ε σ α} {s s' : σ}

theorem Matches.of_ok {a : α} {s₁ s₁' : σ} (h : m s = (.ok a, s₁)) (h' : m' s' = (.ok a, s₁')) (hR : R s₁ s₁') :
    Matches E R m m' s s' where
  ok b s₂ hb := by
    rw [h] at hb
    obtain ⟨hab, rfl⟩ := Prod.mk.inj hb
    exact ⟨s₁', by rw [h', hab], hR⟩
  error e s₂ he := by
    rw [h] at he
    simp at he

theorem Matches.of_error {e : ε} {s₁ s₁' : σ} (h : m s = (.error e, s₁)) (h' : m' s' = (.error e, s₁')) :
    Matches E R m m' s s' where
  ok b s₂ hb := by
    rw [h] at hb
    simp at hb
  error e₂ s₂ he := by
    rw [h] at he
    obtain ⟨hee, -⟩ := Prod.mk.inj he
    exact .inr ⟨s₁', by rw [h', Except.error.inj hee]⟩

/-- Nothing is asked where the first run stops for a reason of `E`. -/
theorem Matches.of_stop {e : ε} {s₁ : σ} (h : m s = (.error e, s₁)) (he : E e) : Matches E R m m' s s' where
  ok b s₂ hb := by
    rw [h] at hb
    simp at hb
  error e₂ s₂ he₂ := by
    rw [h] at he₂
    obtain ⟨hee, -⟩ := Prod.mk.inj he₂
    rw [← Except.error.inj hee]
    exact .inl he

theorem Matches.pure (a : α) (h : R s s') : Matches E R (Pure.pure a) (Pure.pure a) s s' := .of_ok rfl rfl h

theorem Matches.read {f : σ → α} (hf : f s = f s') (h : R s s') : Matches E R (read f) (Run.read f) s s' :=
  .of_ok rfl (by rw [read_apply, hf]) h

theorem Matches.update {f : σ → σ} (h : R (f s) (f s')) : Matches E R (update f) (Run.update f) s s' :=
  .of_ok rfl rfl h

theorem Matches.bind {f f' : α → Run ε σ β} (hm : Matches E Q m m' s s')
    (hf : ∀ a s₁ s₁', m s = (.ok a, s₁) → Q s₁ s₁' → Matches E R (f a) (f' a) s₁ s₁') :
    Matches E R (m >>= f) (m' >>= f') s s' := by
  rcases h : m s with ⟨e | a, s₁⟩
  · rcases hm.error e s₁ h with he | ⟨s₁', h'⟩
    · exact .of_stop (bind_error h) he
    · exact .of_error (bind_error h) (bind_error h')
  · obtain ⟨s₁', h', hQ⟩ := hm.ok a s₁ h
    have hrest := hf a s₁ s₁' h hQ
    constructor
    · intro b s₂ hb
      rw [bind_ok h'] 
      exact hrest.ok b s₂ ((bind_ok h).symm.trans hb)
    · intro e s₂ he
      rw [bind_ok h']
      exact hrest.error e s₂ ((bind_ok h).symm.trans he)

theorem Matches.ite {c : Prop} [Decidable c] {l l' : Run ε σ α} (h : c → Matches E R m m' s s')
    (h' : ¬ c → Matches E R l l' s s') : Matches E R (if c then m else l) (if c then m' else l') s s' := by
  by_cases hc : c
  · rw [if_pos hc, if_pos hc]
    exact h hc
  · rw [if_neg hc, if_neg hc]
    exact h' hc

theorem Matches.branch {p : σ → Prop} [DecidablePred p] {l l' : Run ε σ α} (hp : p s ↔ p s')
    (h : p s → Matches E R m m' s s') (h' : ¬ p s → Matches E R l l' s s') :
    Matches E R (Run.branch p m l) (Run.branch p m' l') s s' := by
  by_cases hc : p s
  · have hm := h hc
    exact ⟨fun a s₁ ha => by rw [branch_pos (hp.mp hc)]; exact hm.ok a s₁ ((branch_pos hc m l).symm.trans ha),
      fun e s₁ he => by rw [branch_pos (hp.mp hc)]; exact hm.error e s₁ ((branch_pos hc m l).symm.trans he)⟩
  · have hm := h' hc
    have hc' : ¬ p s' := fun hs => hc (hp.mpr hs)
    exact ⟨fun a s₁ ha => by rw [branch_neg hc']; exact hm.ok a s₁ ((branch_neg hc m l).symm.trans ha),
      fun e s₁ he => by rw [branch_neg hc']; exact hm.error e s₁ ((branch_neg hc m l).symm.trans he)⟩

end

end GnuPoc.Lib.Run
