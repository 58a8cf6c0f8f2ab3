import Mathlib.Data.List.Basic
import Mathlib.Data.Nat.Notation

/-!
# GnuPoc.Lib.Words — the words of a text

The words between separators, where separators in a row count as one.  The first word is kept apart from those
behind it, so that a text can be read from its end to its beginning: a character joins the word that is open, or a
separator closes it.
-/

namespace GnuPoc.Lib

variable {α : Type} (p : α → Bool)

/-- The fragments between the characters with `p` that are not empty. -/
def words (l : List α) : List (List α) := (l.splitOnP p).filter fun w => !w.isEmpty

/-- The fragment that the text begins with, which may be empty. -/
def firstWord (l : List α) : List α := (l.splitOnP p).headD []

/-- The words behind the first fragment. -/
def wordsBehind (l : List α) : List (List α) := (l.splitOnP p).tail.filter fun w => !w.isEmpty

@[simp] theorem words_nil : words p [] = [] := rfl

theorem words_eq (l : List α) :
    words p l = if firstWord p l = [] then wordsBehind p l else firstWord p l :: wordsBehind p l := by
  unfold words firstWord wordsBehind
  rcases h : l.splitOnP p with - | ⟨f, fs⟩
  · exact absurd h (List.splitOnP_ne_nil p l)
  · rcases f with - | ⟨a, f⟩
    · rfl
    · rfl

section
variable {p} {c : α}

theorem firstWord_separator (h : p c = true) (l : List α) : firstWord p (c :: l) = [] := by
  rw [firstWord, List.splitOnP_cons_eq_if_modifyHead, if_pos h]
  rfl

theorem wordsBehind_separator (h : p c = true) (l : List α) : wordsBehind p (c :: l) = words p l := by
  rw [wordsBehind, List.splitOnP_cons_eq_if_modifyHead, if_pos h]
  rfl

theorem words_separator (h : p c = true) (l : List α) : words p (c :: l) = words p l := by
  rw [words_eq, firstWord_separator h, if_pos rfl, wordsBehind_separator h]

theorem firstWord_letter (h : ¬p c = true) (l : List α) : firstWord p (c :: l) = c :: firstWord p l := by
  rw [firstWord, firstWord, List.splitOnP_cons_eq_if_modifyHead, if_neg h]
  rcases hsplit : l.splitOnP p with - | ⟨f, fs⟩
  · exact absurd hsplit (List.splitOnP_ne_nil p l)
  · rfl

theorem wordsBehind_letter (h : ¬p c = true) (l : List α) : wordsBehind p (c :: l) = wordsBehind p l := by
  rw [wordsBehind, wordsBehind, List.splitOnP_cons_eq_if_modifyHead, if_neg h, List.tail_modifyHead]

theorem words_letter (h : ¬p c = true) (l : List α) :
    words p (c :: l) = (c :: firstWord p l) :: wordsBehind p l := by
  rw [words_eq, firstWord_letter h, if_neg (List.cons_ne_nil _ _), wordsBehind_letter h]

theorem length_wordsBehind_le (l : List α) : (wordsBehind p l).length ≤ (words p l).length := by
  rw [words_eq]
  split
  · exact Nat.le_refl _
  · exact Nat.le_succ _

end

/-! ### Two texts -/

/-- The same first word, and the same words behind it. -/
structure SameWords (l l' : List α) : Prop where
  first : firstWord p l = firstWord p l'
  behind : wordsBehind p l = wordsBehind p l'

/-- The second text has a first word if the first one has, and at least as many words behind it. -/
structure MoreWords (l l' : List α) : Prop where
  first : firstWord p l ≠ [] → firstWord p l' ≠ []
  behind : (wordsBehind p l).length ≤ (wordsBehind p l').length

section
variable {p} {c c' : α} {l l' : List α}

theorem SameWords.words (h : SameWords p l l') : words p l = words p l' := by
  rw [words_eq, words_eq, h.first, h.behind]

theorem SameWords.separator (hc : p c = true) (hc' : p c' = true)
    (h : Lib.words p l = Lib.words p l') : SameWords p (c :: l) (c' :: l') where
  first := by rw [firstWord_separator hc, firstWord_separator hc']
  behind := by rw [wordsBehind_separator hc, wordsBehind_separator hc', h]

theorem SameWords.cons (h : SameWords p l l') (c : α) : SameWords p (c :: l) (c :: l') := by
  by_cases hc : p c = true
  · exact .separator hc hc h.words
  · refine ⟨?_, ?_⟩
    · rw [firstWord_letter hc, firstWord_letter hc, h.first]
    · rw [wordsBehind_letter hc, wordsBehind_letter hc, h.behind]

theorem MoreWords.words (h : MoreWords p l l') : (words p l).length ≤ (words p l').length := by
  rw [words_eq p l]
  split
  · exact Nat.le_trans h.behind (length_wordsBehind_le l')
  · next hne =>
    rw [words_eq p l', if_neg (h.first hne)]
    exact Nat.succ_le_succ h.behind

theorem MoreWords.words_lt (h : MoreWords p l l') (hlt : (wordsBehind p l).length < (wordsBehind p l').length) :
    (Lib.words p l).length < (Lib.words p l').length := by
  rw [words_eq p l]
  split
  · exact Nat.lt_of_lt_of_le hlt (length_wordsBehind_le l')
  · next hne =>
    rw [words_eq p l', if_neg (h.first hne)]
    exact Nat.succ_lt_succ hlt

theorem MoreWords.separator (hc : p c = true) (hc' : p c' = true)
    (h : (Lib.words p l).length ≤ (Lib.words p l').length) : MoreWords p (c :: l) (c' :: l') where
  first hne := absurd (firstWord_separator hc l) hne
  behind := by rwa [wordsBehind_separator hc, wordsBehind_separator hc']

theorem MoreWords.cons (h : MoreWords p l l') (c : α) : MoreWords p (c :: l) (c :: l') := by
  by_cases hc : p c = true
  · exact .separator hc hc h.words
  · refine ⟨fun _ => ?_, ?_⟩
    · rw [firstWord_letter hc]
      exact List.cons_ne_nil _ _
    · rw [wordsBehind_letter hc, wordsBehind_letter hc]
      exact h.behind

theorem length_wordsBehind_lt_cons (h : MoreWords p l l')
    (hlt : (wordsBehind p l).length < (wordsBehind p l').length) (c : α) :
    (wordsBehind p (c :: l)).length < (wordsBehind p (c :: l')).length := by
  by_cases hc : p c = true
  · rw [wordsBehind_separator hc, wordsBehind_separator hc]
    exact h.words_lt hlt
  · rw [wordsBehind_letter hc, wordsBehind_letter hc]
    exact hlt

theorem length_wordsBehind_le_cons (c : α) (l : List α) :
    (wordsBehind p l).length ≤ (wordsBehind p (c :: l)).length := by
  by_cases hc : p c = true
  · rw [wordsBehind_separator hc]
    exact length_wordsBehind_le l
  · exact Nat.le_of_eq (congrArg List.length (wordsBehind_letter hc l).symm)

end

/-! ### Cutting words off -/

theorem firstWord_eq_takeWhile (l : List α) : firstWord p l = l.takeWhile fun c => !p c := by
  induction l with
  | nil => rfl
  | cons c l ih =>
    rw [List.takeWhile_cons]
    by_cases h : p c = true
    · rw [firstWord_separator h, h]
      rfl
    · rw [firstWord_letter h, ih, Bool.eq_false_iff.mpr h]
      rfl

theorem wordsBehind_eq_dropWhile (l : List α) : wordsBehind p l = words p (l.dropWhile fun c => !p c) := by
  induction l with
  | nil => rfl
  | cons c l ih =>
    rw [List.dropWhile_cons]
    by_cases h : p c = true
    · rw [wordsBehind_separator h, h]
      exact (words_separator h l).symm
    · rw [wordsBehind_letter h, ih, Bool.eq_false_iff.mpr h]
      rfl

theorem words_dropWhile (l : List α) : words p (l.dropWhile p) = words p l := by
  induction l with
  | nil => rfl
  | cons c l ih =>
    rw [List.dropWhile_cons]
    by_cases h : p c = true
    · rw [if_pos h, ih, words_separator h]
    · rw [if_neg h]

end GnuPoc.Lib
