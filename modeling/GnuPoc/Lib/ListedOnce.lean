import Mathlib.Data.List.Perm.Basic
import Mathlib.Data.List.Nodup

/-!
# GnuPoc.Lib.ListedOnce — a list that holds what some items ask for

A pass over items fills a list.  Each item has a key of its own, which what it adds can be told by: so the list holds what
is wanted, once, and nothing else exactly when every item adds what is wanted of it.
-/

namespace GnuPoc.Lib

variable {α β γ : Type} [DecidableEq β]

/-- What is wanted of the items is listed once, and nothing else is. -/
structure ListedOnce (items : List α) (wanted : α → β → Prop) (held : List β) : Prop where
  once : ∀ a ∈ items, ∀ b, wanted a b → held.count b = 1
  only : ∀ b ∈ held, ∃ a ∈ items, wanted a b

/-- The list is right exactly when what was done for each item is what is wanted. -/
theorem listedOnce_iff {items : List α} (wanted : α → β → Prop) {held : List β} {done : α → Option β} {key : α → γ}
    (keyOf : β → γ) (hkeys : (items.map key).Nodup) (hperm : held.Perm (items.filterMap done))
    (hdone : ∀ a b, done a = some b → keyOf b = key a) (hwanted : ∀ a b, wanted a b → keyOf b = key a) :
    ListedOnce items wanted held ↔ ∀ a ∈ items, ∀ b, done a = some b ↔ wanted a b := by
  have hsame : ∀ a ∈ items, ∀ a' ∈ items, key a = key a' → a = a' :=
    fun a ha a' ha' hkey => List.inj_on_of_nodup_map hkeys ha ha' hkey
  constructor
  · intro h a ha b
    constructor
    · intro hb
      have hheld : b ∈ held := hperm.mem_iff.mpr (List.mem_filterMap.mpr ⟨a, ha, hb⟩)
      obtain ⟨a', ha', hb'⟩ := h.only b hheld
      rw [hsame a ha a' ha' ((hdone a b hb).symm.trans (hwanted a' b hb'))]
      exact hb'
    · intro hb
      have hheld : b ∈ held := List.count_pos_iff.mp (by rw [h.once a ha b hb]; exact Nat.one_pos)
      obtain ⟨a', ha', hb'⟩ := List.mem_filterMap.mp (hperm.mem_iff.mp hheld)
      rw [hsame a ha a' ha' ((hwanted a b hb).symm.trans (hdone a' b hb'))]
      exact hb'
  · intro h
    have hnodup : held.Nodup := by
      rw [hperm.nodup_iff, List.Nodup, List.pairwise_filterMap]
      refine (List.pairwise_map.mp hkeys).imp fun {a a'} hne b hb b' hb' heq => hne ?_
      rw [← hdone a b hb, ← hdone a' b' hb', heq]
    refine ⟨fun a ha b hb => ?_, fun b hb => ?_⟩
    · refine List.count_eq_one_of_mem hnodup (hperm.mem_iff.mpr ?_)
      exact List.mem_filterMap.mpr ⟨a, ha, (h a ha b).mpr hb⟩
    · obtain ⟨a, ha, hb⟩ := List.mem_filterMap.mp (hperm.mem_iff.mp hb)
      exact ⟨a, ha, (h a ha b).mp hb⟩

end GnuPoc.Lib
