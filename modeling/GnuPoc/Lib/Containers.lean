import Mathlib.Data.List.Flatten
import Mathlib.Data.List.Sort
import Mathlib.Order.Basic

/-!
# GnuPoc.Lib.Containers — `std::map` and `std::sort`

A `SortedMap` is a list of entries in strictly ascending key order, which is how an iterator walks a
`std::map`.  `StdSort` is what the standard promises of `std::sort`: some permutation of the elements
without a descent, and no more.
-/

namespace GnuPoc.Lib

/-! ### `std::map` -/

structure SortedMap (κ ν : Type) [LinearOrder κ] where
  entries : List (κ × ν)
  ascending : entries.Pairwise fun a b => a.1 < b.1

namespace SortedMap

variable {κ ν : Type} [LinearOrder κ]

/-- `std::map()`. -/
def empty : SortedMap κ ν := ⟨[], .nil⟩

/-- The value at a key. -/
def get? (m : SortedMap κ ν) (k : κ) : Option ν := (m.entries.find? fun e => e.1 = k).map Prod.snd

/-- The entries after `f(map[k])`; a missing value starts as `d`. -/
def alterEntries (k : κ) (d : ν) (f : ν → ν) : List (κ × ν) → List (κ × ν)
  | [] => [(k, f d)]
  | e :: es =>
    if k < e.1 then (k, f d) :: e :: es
    else if k = e.1 then (k, f e.2) :: es
    else e :: alterEntries k d f es

theorem mem_alterEntries_key {k : κ} {d : ν} {f : ν → ν} {es : List (κ × ν)} {e : κ × ν}
    (h : e ∈ alterEntries k d f es) : e.1 = k ∨ e ∈ es := by
  induction es with
  | nil =>
    simp only [alterEntries, List.mem_singleton] at h
    exact .inl (congrArg Prod.fst h)
  | cons e' es ih =>
    simp only [alterEntries] at h
    split at h
    · rcases List.mem_cons.mp h with rfl | h
      · exact .inl rfl
      · exact .inr h
    · split at h
      · rcases List.mem_cons.mp h with rfl | h
        · exact .inl rfl
        · exact .inr (List.mem_cons_of_mem _ h)
      · rcases List.mem_cons.mp h with rfl | h
        · exact .inr List.mem_cons_self
        · exact (ih h).imp_right (List.mem_cons_of_mem _)

theorem pairwise_alterEntries {k : κ} {d : ν} {f : ν → ν} {es : List (κ × ν)}
    (h : es.Pairwise fun a b => a.1 < b.1) : (alterEntries k d f es).Pairwise fun a b => a.1 < b.1 := by
  induction es with
  | nil => exact List.pairwise_singleton _ _
  | cons e es ih =>
    obtain ⟨hlt, hes⟩ := List.pairwise_cons.mp h
    simp only [alterEntries]
    split
    · next hk =>
      refine List.pairwise_cons.mpr ⟨fun e' he' => ?_, h⟩
      rcases List.mem_cons.mp he' with rfl | he'
      · exact hk
      · exact hk.trans (hlt e' he')
    · split
      · next hk =>
        refine List.pairwise_cons.mpr ⟨fun e' he' => ?_, hes⟩
        rw [hk]
        exact hlt e' he'
      · next hnlt hne =>
        refine List.pairwise_cons.mpr ⟨fun e' he' => ?_, ih hes⟩
        rcases mem_alterEntries_key he' with hk | he'
        · rw [hk]
          exact lt_of_le_of_ne (not_lt.mp hnlt) (Ne.symm hne)
        · exact hlt e' he'

def alter (m : SortedMap κ ν) (k : κ) (d : ν) (f : ν → ν) : SortedMap κ ν :=
  ⟨alterEntries k d f m.entries, pairwise_alterEntries m.ascending⟩

theorem find?_alterEntries_self (k : κ) (d : ν) (f : ν → ν) {es : List (κ × ν)}
    (h : es.Pairwise fun a b => a.1 < b.1) :
    ((alterEntries k d f es).find? fun e => e.1 = k).map Prod.snd =
      some (f (((es.find? fun e => e.1 = k).map Prod.snd).getD d)) := by
  induction es with
  | nil => simp [alterEntries]
  | cons e es ih =>
    obtain ⟨hlt, hes⟩ := List.pairwise_cons.mp h
    simp only [alterEntries]
    split
    · next hk =>
      have hne : ∀ e' ∈ e :: es, ¬ decide (e'.1 = k) = true := by
        intro e' he'
        rcases List.mem_cons.mp he' with rfl | he'
        · simpa using hk.ne'
        · simpa using (hk.trans (hlt e' he')).ne'
      rw [List.find?_eq_none.mpr hne]
      simp
    · split
      · next hk => simp [hk]
      · next hnlt hne =>
        have hne' : ¬ e.1 = k := fun he => hne he.symm
        simp only [List.find?_cons, hne', decide_false]
        exact ih hes

theorem find?_alterEntries_of_ne {k k' : κ} (hne : k' ≠ k) (d : ν) (f : ν → ν) (es : List (κ × ν)) :
    (alterEntries k d f es).find? (fun e => e.1 = k') = es.find? fun e => e.1 = k' := by
  have hk' : ¬ k = k' := fun h => hne h.symm
  induction es with
  | nil => simp [alterEntries, hk']
  | cons e es ih =>
    simp only [alterEntries]
    split
    · simp [hk']
    · split
      · next hk => simp [hk', ← hk]
      · rw [List.find?_cons, List.find?_cons, ih]

theorem get?_alter_self (m : SortedMap κ ν) (k : κ) (d : ν) (f : ν → ν) :
    (m.alter k d f).get? k = some (f ((m.get? k).getD d)) :=
  find?_alterEntries_self k d f m.ascending

theorem get?_alter_of_ne (m : SortedMap κ ν) {k k' : κ} (hne : k' ≠ k) (d : ν) (f : ν → ν) :
    (m.alter k d f).get? k' = m.get? k' := by
  rw [get?, alter, find?_alterEntries_of_ne hne, get?]

theorem mem_entries_iff (m : SortedMap κ ν) (k : κ) (v : ν) : (k, v) ∈ m.entries ↔ m.get? k = some v := by
  unfold get?
  have hasc := m.ascending
  generalize m.entries = es at hasc
  induction es with
  | nil => simp
  | cons e es ih =>
    obtain ⟨hlt, hes⟩ := List.pairwise_cons.mp hasc
    have ih' : (k, v) ∈ es ↔ (es.find? fun e => e.1 = k).map Prod.snd = some v := ih hes
    rw [List.mem_cons, List.find?_cons, ih']
    by_cases hk : e.1 = k
    · have hnone : ¬ (es.find? fun e => e.1 = k).map Prod.snd = some v := by
        intro h
        obtain ⟨e', he', -⟩ := Option.map_eq_some_iff.mp h
        have hk' : e'.1 = k := by simpa using List.find?_some he'
        exact absurd (hlt e' (List.mem_of_find?_eq_some he')) (by rw [hk, hk']; exact lt_irrefl k)
      simp only [hk, decide_true, Option.map_some, Option.some.injEq]
      constructor
      · rintro (h | h)
        · rw [← h]
        · exact absurd h hnone
      · intro h
        exact .inl (Prod.ext hk.symm h.symm)
    · simp only [hk, decide_false]
      constructor
      · rintro (h | h)
        · exact absurd (congrArg Prod.fst h).symm hk
        · exact h
      · exact .inr

theorem keys_nodup (m : SortedMap κ ν) : (m.entries.map Prod.fst).Nodup :=
  (List.pairwise_map.mpr (m.ascending.imp fun h => ne_of_lt h))

theorem flatMap_alterEntries_perm {α β : Type} (g : κ → α → β) (k : κ) (a : α) (es : List (κ × List α)) :
    ((alterEntries k [] (· ++ [a]) es).flatMap fun e => e.2.map (g e.1)).Perm
      ((es.flatMap fun e => e.2.map (g e.1)) ++ [g k a]) := by
  induction es with
  | nil => exact List.Perm.refl _
  | cons e es ih =>
    simp only [alterEntries]
    split
    · exact List.perm_append_singleton _ _ |>.symm
    · split
      · next hk =>
        subst hk
        simp only [List.flatMap_cons, List.map_append, List.map_singleton, List.append_assoc]
        exact List.Perm.append_left _ List.perm_append_comm
      · rw [List.flatMap_cons, List.flatMap_cons, List.append_assoc]
        exact List.Perm.append_left _ ih

end SortedMap

/-! ### Grouping by key -/

theorem flatMap_filter_perm {α κ : Type} [DecidableEq κ] (f : α → κ) : ∀ {ks : List κ} {l : List α}, ks.Nodup →
    (∀ a ∈ l, f a ∈ ks) → (ks.flatMap fun k => l.filter fun a => f a = k).Perm l
  | [], [], _, _ => .nil
  | [], a :: _, _, h => absurd (h a List.mem_cons_self) List.not_mem_nil
  | k :: ks, l, hn, h => by
    obtain ⟨hk, hks⟩ := List.nodup_cons.mp hn
    have hrest : ∀ k' ∈ ks, (l.filter fun a => f a = k') = (l.filter fun a => ¬ f a = k).filter fun a => f a = k' := by
      intro k' hk'
      rw [List.filter_filter]
      refine List.filter_congr fun a _ => ?_
      have hne : k' ≠ k := fun h0 => hk (h0 ▸ hk')
      by_cases ha : f a = k'
      · simp [ha, hne]
      · simp [ha]
    rw [List.flatMap_cons, List.flatMap_congr hrest]
    refine (List.Perm.append_left _ (flatMap_filter_perm f hks fun a ha => ?_)).trans
      (by simpa using List.filter_append_perm (fun a => decide (f a = k)) l)
    obtain ⟨ha, hak⟩ := List.mem_filter.mp ha
    rcases List.mem_cons.mp (h a ha) with h0 | h0
    · simp [h0] at hak
    · exact h0

/-! ### `std::sort` -/

/-- A sort by `lt`. -/
structure StdSort {α : Type} (lt : α → α → Bool) where
  run : List α → List α
  perm : ∀ l, (run l).Perm l
  sorted : ∀ l, (run l).Pairwise fun a b => lt b a = false

namespace StdSort

variable {α : Type} {lt : α → α → Bool}

/-- Merge sort is one, for every `lt` that is a strict weak order. -/
def ofMergeSort (htrans : ∀ a b c, lt b a = false → lt c b = false → lt c a = false)
    (hasymm : ∀ a b, lt a b = true → lt b a = false) : StdSort lt where
  run l := l.mergeSort fun a b => !lt b a
  perm l := List.mergeSort_perm l _
  sorted l := by
    refine (List.pairwise_mergeSort ?_ ?_ l).imp fun h => ?_
    · intro a b c hab hbc
      simp only [Bool.not_eq_true'] at hab hbc ⊢
      exact htrans a b c hab hbc
    · intro a b
      cases h : lt b a with
      | false => rfl
      | true => simp [hasymm b a h]
    · simpa using h

theorem length_run (sort : StdSort lt) (l : List α) : (sort.run l).length = l.length := (sort.perm l).length_eq

theorem mem_run (sort : StdSort lt) {l : List α} {a : α} : a ∈ sort.run l ↔ a ∈ l := (sort.perm l).mem_iff

end StdSort

end GnuPoc.Lib
