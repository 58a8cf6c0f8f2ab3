import GnuPoc.Lib.CString
import GnuPoc.Lib.Outcome
import GnuPoc.Lib.Words
import Mathlib.Data.List.TakeWhile

/-!
# GnuPoc.Bmconv.CommandFile — the arguments in a command file (`mainfunc.cpp`)

`ProcessCommandFile` reads the file, overwrites comments with spaces, and then goes from word to word.  The two
passes see the text differently: the first steps over a character behind each 0x1a, and the second counts a word
only when it finds white space behind it.
-/

namespace GnuPoc.Bmconv

open Lib

/-! ### The two passes -/

def IsWhiteSpace (aCharacter : UInt8) : Bool :=
  aCharacter == 32 || aCharacter == 10 || aCharacter == 13 || aCharacter == 0x1a

def isLineEnd (c : UInt8) : Bool := c == 10 || c == 13

/-- `//` stands here. -/
def startsComment (c : UInt8) (rest : Bytes) : Bool := c == 47 && rest.head? == some 47

/-- Where the pointer of the first pass is: at a character that it looks at, at one that it steps over, or in a
comment. -/
inductive Pass
  | look
  | leap
  | comment
  deriving DecidableEq

/-- The step over a character with this text behind it; a line end, which ends a comment, is stepped over. -/
def Pass.next (c : UInt8) (rest : Bytes) : Pass → Pass
  | .look => if startsComment c rest then .comment else if c = 0x1a then .leap else .look
  | .leap => .look
  | .comment => if isLineEnd c then .look else .comment

/-- What the character becomes. -/
def Pass.put (c : UInt8) (rest : Bytes) : Pass → UInt8
  | .look => if startsComment c rest ∨ c = 0x1a then 32 else c
  | .leap => c
  | .comment => if isLineEnd c then c else 32

/-- The first pass. -/
def blank : Pass → Bytes → Bytes
  | _, [] => []
  | p, c :: rest => p.put c rest :: blank (p.next c rest) rest

abbrev KMaxArguments : ℕ := 512

/-- The second pass from `commandptr` on, with the pointers that are stored and the count; a pointer stands for
the word that it points to, and behind the array nothing may be stored. -/
def collect (commandptr : Bytes) (aArgPtrs : List Bytes) (aNumArgs : ℕ) : Outcome (List Bytes × ℕ) :=
  match h : commandptr.dropWhile IsWhiteSpace with
  | [] => .ok (aArgPtrs, aNumArgs)
  | c :: rest =>
    if KMaxArguments ≤ aNumArgs then .error .undefined
    else
      let argument := (c :: rest).takeWhile fun c => !IsWhiteSpace c
      let behind := rest.dropWhile fun c => !IsWhiteSpace c
      if behind = [] then .ok (aArgPtrs ++ [argument], aNumArgs)
      else collect behind (aArgPtrs ++ [argument]) (aNumArgs + 1)
termination_by commandptr.length
decreasing_by
  have hdrop := (List.dropWhile_sublist (p := IsWhiteSpace) (l := commandptr)).length_le
  have hbehind := (List.dropWhile_sublist (p := fun c => !IsWhiteSpace c) (l := rest)).length_le
  rw [h, List.length_cons] at hdrop
  omega

inductive CommandError
  | NoError
  | CommandFile
  deriving DecidableEq

/-- What `ProcessCommandFile` returns, the strings that the array points to, and `aNumArgs`. -/
structure Arguments where
  ret : CommandError
  aArgPtrs : List Bytes
  aNumArgs : ℕ

/-- `int filesize` of a length. -/
def filesize (length : ℕ) : ℤ := (length : ℤ).bmod 4294967296

/-- `ProcessCommandFile` on a file, which may be missing, with an empty array of arguments.  A negative size is no
size for a buffer. -/
def ProcessCommandFile (file : Option Bytes) : Outcome Arguments :=
  match file with
  | none => .ok ⟨.CommandFile, [], 0⟩
  | some text =>
    let filesize := filesize text.length
    if filesize = 0 then .ok ⟨.NoError, [], 0⟩
    else if filesize < 0 then .error .undefined
    else do
      let (aArgPtrs, aNumArgs) ← collect (blank .look (text.take filesize.toNat)) [] 0
      .ok ⟨.NoError, aArgPtrs.map readCString, aNumArgs⟩

/-! ### What it is for -/

/-- The text without its comments; `true` is in a comment. -/
def stripComments : Bool → Bytes → Bytes
  | _, [] => []
  | true, c :: rest => if isLineEnd c then c :: stripComments false rest else stripComments true rest
  | false, c :: rest => if startsComment c rest then stripComments true rest else c :: stripComments false rest

def removeComments (text : Bytes) : Bytes := stripComments false text

/-- The arguments in a text. -/
def arguments (text : Bytes) : List Bytes := words IsWhiteSpace (removeComments text)

/-! ### The second pass -/

/-- The text ends with white space, or is empty. -/
def Closed (l : Bytes) : Prop := ∀ c ∈ l.getLast?, IsWhiteSpace c = true

theorem closed_cons {c d : UInt8} {l : Bytes} : Closed (c :: d :: l) ↔ Closed (d :: l) := by
  rw [Closed, Closed, List.getLast?_cons_cons]

theorem closed_of_suffix {l l' : Bytes} (h : l' <:+ l) (hne : l' ≠ []) : Closed l ↔ Closed l' := by
  obtain ⟨front, rfl⟩ := h
  rw [Closed, Closed, List.getLast?_append_of_ne_nil front hne]

theorem closed_of_all {l : Bytes} (h : ∀ c ∈ l, IsWhiteSpace c = true) : Closed l :=
  fun c hc => h c (List.mem_of_getLast? hc)

theorem not_closed_of_all {l : Bytes} (hne : l ≠ []) (h : ∀ c ∈ l, ¬IsWhiteSpace c = true) : ¬Closed l := by
  intro hclosed
  exact h _ (List.getLast_mem hne) (hclosed _ (List.getLast?_eq_some_getLast hne))

theorem words_of_dropWhile {l rest : Bytes} {c : UInt8} (h : l.dropWhile IsWhiteSpace = c :: rest) :
    words IsWhiteSpace l = (c :: firstWord IsWhiteSpace rest) :: wordsBehind IsWhiteSpace rest ∧
    ((c :: rest).takeWhile fun c => !IsWhiteSpace c) = c :: firstWord IsWhiteSpace rest ∧
    (c :: rest) <:+ l ∧ ¬IsWhiteSpace c = true := by
  have hletter : ¬IsWhiteSpace c = true := by
    have hhead := List.head?_dropWhile_not IsWhiteSpace l
    rw [h] at hhead
    simpa using hhead
  refine ⟨?_, ?_, ?_, hletter⟩
  · rw [← words_dropWhile, h, words_letter hletter]
  · rw [← firstWord_eq_takeWhile, firstWord_letter hletter]
  · rw [← h]
    exact List.dropWhile_suffix _

theorem collect_nil {l : Bytes} (h : l.dropWhile IsWhiteSpace = []) (ptrs : List Bytes) (n : ℕ) :
    collect l ptrs n = .ok (ptrs, n) := by
  rw [collect.eq_def]
  split
  · rfl
  · next h' => cases h.symm.trans h'

theorem collect_cons {l rest : Bytes} {c : UInt8} (h : l.dropWhile IsWhiteSpace = c :: rest) (ptrs : List Bytes)
    (n : ℕ) : collect l ptrs n =
      if KMaxArguments ≤ n then .error .undefined
      else if (rest.dropWhile fun c => !IsWhiteSpace c) = [] then
        .ok (ptrs ++ [(c :: rest).takeWhile fun c => !IsWhiteSpace c], n)
      else collect (rest.dropWhile fun c => !IsWhiteSpace c)
        (ptrs ++ [(c :: rest).takeWhile fun c => !IsWhiteSpace c]) (n + 1) := by
  rw [collect.eq_def]
  split
  · next h' => cases h.symm.trans h'
  · next c' rest' h' =>
    cases h.symm.trans h'
    rfl

variable {c : UInt8} (l : Bytes)

/-- The words are stored in order where the array has room for them, and are all counted if the text is closed. -/
theorem collect_words (ptrs : List Bytes) (n : ℕ) (hn : n ≤ KMaxArguments) :
    (KMaxArguments < n + (words IsWhiteSpace l).length → collect l ptrs n = .error .undefined) ∧
    (n + (words IsWhiteSpace l).length ≤ KMaxArguments → ∃ m,
      collect l ptrs n = .ok (ptrs ++ words IsWhiteSpace l, m) ∧
      (m = n + (words IsWhiteSpace l).length ↔ Closed l)) := by
  induction l, ptrs, n using collect.induct with
  | case1 l ptrs n h =>
    have hwords : words IsWhiteSpace l = [] := by rw [← words_dropWhile, h, words_nil]
    have hclosed : Closed l := closed_of_all (List.dropWhile_eq_nil_iff.mp h)
    rw [collect_nil h, hwords, List.length_nil, Nat.add_zero, List.append_nil]
    exact ⟨fun hlt => absurd hlt (not_lt.mpr hn), fun _ => ⟨n, rfl, fun _ => hclosed, fun _ => rfl⟩⟩
  | case2 l ptrs n c rest h hfull =>
    obtain ⟨hwords, -⟩ := words_of_dropWhile h
    rw [collect_cons h, hwords, if_pos hfull, List.length_cons]
    exact ⟨fun _ => rfl, fun hle => by omega⟩
  | case3 l ptrs n c rest h hroom behind hnil =>
    obtain ⟨hwords, hargument, hsuffix, hletter⟩ := words_of_dropWhile h
    have hnone : wordsBehind IsWhiteSpace rest = [] := by
      rw [wordsBehind_eq_dropWhile]
      exact (congrArg _ hnil).trans (words_nil _)
    have hopen : ¬Closed l := by
      rw [closed_of_suffix hsuffix (List.cons_ne_nil _ _)]
      refine not_closed_of_all (List.cons_ne_nil _ _) fun d hd => ?_
      rcases List.mem_cons.mp hd with rfl | hd
      · exact hletter
      · simpa using List.dropWhile_eq_nil_iff.mp hnil d hd
    rw [collect_cons h, hwords, hnone, if_neg hroom, if_pos hnil, hargument, List.length_singleton]
    exact ⟨fun hlt => by omega, fun _ => ⟨n, rfl, fun hm => by omega, fun hclosed => absurd hclosed hopen⟩⟩
  | case4 l ptrs n c rest h hroom argument behind hne ih =>
    obtain ⟨hwords, hargument, hsuffix, hletter⟩ := words_of_dropWhile h
    have hbehind : wordsBehind IsWhiteSpace rest = words IsWhiteSpace behind := wordsBehind_eq_dropWhile _ rest
    have hclosed : Closed l ↔ Closed behind := by
      refine closed_of_suffix (.trans ?_ hsuffix) hne
      exact (List.dropWhile_suffix _).trans (List.suffix_cons c rest)
    obtain ⟨herror, hok⟩ := ih (by omega)
    have hstep : collect l ptrs n = collect behind (ptrs ++ [argument]) (n + 1) := by
      rw [collect_cons h, if_neg hroom]
      exact if_neg hne
    rw [hstep, hwords, hbehind, List.length_cons, hclosed, ← hargument]
    refine ⟨fun hlt => herror (by omega), fun hle => ?_⟩
    obtain ⟨m, hcollect, hm⟩ := hok (by omega)
    refine ⟨m, by rw [hcollect, List.append_assoc]; rfl, ?_⟩
    rw [← hm]
    omega

/-! ### The first pass -/

/-- The pass steps over the first slash of a comment. -/
def skips : Pass → Bytes → Bool
  | _, [] => false
  | p, c :: rest => (p == .leap && startsComment c rest) || skips (p.next c rest) rest

def passBehind : Pass → Bytes → Pass
  | p, [] => p
  | p, c :: rest => passBehind (p.next c rest) rest

theorem startsComment_iff {rest : Bytes} : startsComment c rest = true ↔ c = 47 ∧ ∃ rest', rest = 47 :: rest' := by
  rw [startsComment, Bool.and_eq_true, beq_iff_eq, beq_iff_eq, List.head?_eq_some_iff]

theorem isWhiteSpace_iff : IsWhiteSpace c = true ↔ c = 32 ∨ c = 10 ∨ c = 13 ∨ c = 0x1a := by
  simp only [IsWhiteSpace, Bool.or_eq_true, beq_iff_eq, or_assoc]

theorem isLineEnd_iff : isLineEnd c = true ↔ c = 10 ∨ c = 13 := by
  simp only [isLineEnd, Bool.or_eq_true, beq_iff_eq]

theorem isWhiteSpace_of_isLineEnd (h : isLineEnd c = true) : IsWhiteSpace c = true := by
  rw [isWhiteSpace_iff]
  rcases isLineEnd_iff.mp h with rfl | rfl
  · exact .inr (.inl rfl)
  · exact .inr (.inr (.inl rfl))

theorem isWhiteSpace_space : IsWhiteSpace 32 = true := rfl

theorem look_lineEnd (h : isLineEnd c = true) (rest : Bytes) :
    Pass.next c rest .look = .look ∧ Pass.put c rest .look = c := by
  have hcomment : ¬startsComment c rest = true := by
    rw [startsComment_iff]
    rintro ⟨rfl, -⟩
    cases h
  have hsub : c ≠ 0x1a := by
    rintro rfl
    cases h
  refine ⟨?_, ?_⟩
  · rw [Pass.next, if_neg hcomment, if_neg hsub]
  · rw [Pass.put, if_neg (not_or.mpr ⟨hcomment, hsub⟩)]

/-- The text after the pass ends with white space where the text does, or in a comment. -/
theorem closed_blank : ∀ p : Pass, Closed (blank p l) ↔ Closed l ∨ passBehind p l = .comment := by
  induction l with
  | nil => exact fun p => ⟨fun h => .inl h, fun _ c hc => by cases hc⟩
  | cons c l ih =>
    intro p
    rcases l with - | ⟨d, l⟩
    · have hsingle : ∀ a : UInt8, Closed [a] ↔ IsWhiteSpace a = true := fun a => by simp [Closed]
      show Closed [p.put c []] ↔ Closed [c] ∨ p.next c [] = .comment
      rw [hsingle, hsingle]
      cases p with
      | look =>
        have hcomment : startsComment c [] = false := by simp [startsComment]
        simp only [Pass.put, Pass.next, hcomment]
        by_cases hsub : c = 0x1a
        · simp [hsub, IsWhiteSpace]
        · simp [hsub]
      | leap => simp [Pass.put, Pass.next]
      | comment =>
        by_cases hend : isLineEnd c = true
        · simp [Pass.put, hend, isWhiteSpace_of_isLineEnd hend]
        · simp [Pass.put, Pass.next, hend, IsWhiteSpace]
    · rw [closed_cons]
      exact closed_cons.trans (ih (p.next c (d :: l)))

theorem firstWord_inComment : firstWord IsWhiteSpace (stripComments true l) = [] := by
  induction l with
  | nil => rfl
  | cons c l ih =>
    rw [stripComments]
    split
    · next hend => exact firstWord_separator (isWhiteSpace_of_isLineEnd hend) _
    · exact ih

theorem wordsBehind_inComment :
    wordsBehind IsWhiteSpace (stripComments true l) = words IsWhiteSpace (stripComments true l) := by
  rw [words_eq, if_pos (firstWord_inComment l)]

/-- Where the pass steps over no comment, it leaves the words of the text without its comments. -/
theorem blank_sameWords :
    (skips .look l = false → SameWords IsWhiteSpace (blank .look l) (stripComments false l)) ∧
    (skips .leap l = false → SameWords IsWhiteSpace (blank .leap l) (stripComments false l)) ∧
    (skips .comment l = false →
      words IsWhiteSpace (blank .comment l) = words IsWhiteSpace (stripComments true l)) := by
  induction l with
  | nil => exact ⟨fun _ => ⟨rfl, rfl⟩, fun _ => ⟨rfl, rfl⟩, fun _ => rfl⟩
  | cons c l ih =>
    obtain ⟨ihlook, ihover, ihcomment⟩ := ih
    refine ⟨fun h => ?_, fun h => ?_, fun h => ?_⟩
    · rw [skips, Bool.or_eq_false_iff] at h
      obtain ⟨-, h⟩ := h
      rw [blank, stripComments]
      unfold Pass.next at h ⊢
      unfold Pass.put
      by_cases hcomment : startsComment c l = true
      · rw [if_pos hcomment] at h ⊢
        rw [if_pos (.inl hcomment), if_pos hcomment]
        refine ⟨?_, ?_⟩
        · rw [firstWord_separator isWhiteSpace_space, firstWord_inComment]
        · rw [wordsBehind_separator isWhiteSpace_space, wordsBehind_inComment, ihcomment h]
      rw [if_neg hcomment] at h ⊢
      by_cases hsub : c = 0x1a
      · subst hsub
        rw [if_pos rfl] at h ⊢
        rw [if_pos (.inr rfl), if_neg hcomment]
        exact .separator isWhiteSpace_space rfl (ihover h).words
      · rw [if_neg hsub] at h ⊢
        rw [if_neg (not_or.mpr ⟨hcomment, hsub⟩), if_neg hcomment]
        exact (ihlook h).cons c
    · rw [skips, Bool.or_eq_false_iff, beq_self_eq_true, Bool.true_and] at h
      rw [stripComments, if_neg (Bool.eq_false_iff.mp h.1)]
      exact (ihlook h.2).cons c
    · rw [skips, Bool.or_eq_false_iff] at h
      obtain ⟨-, h⟩ := h
      rw [blank, stripComments]
      unfold Pass.next at h ⊢
      unfold Pass.put
      by_cases hend : isLineEnd c = true
      · have hwhite := isWhiteSpace_of_isLineEnd hend
        rw [if_pos hend] at h
        rw [if_pos hend, if_pos hend, if_pos hend, words_separator hwhite, words_separator hwhite]
        exact (ihlook h).words
      · rw [if_neg hend] at h
        rw [if_neg hend, if_neg hend, if_neg hend, words_separator isWhiteSpace_space]
        exact ihcomment h

/-- The pass leaves no fewer words than the text without its comments has. -/
theorem blank_moreWords :
    MoreWords IsWhiteSpace (stripComments false l) (blank .look l) ∧
    MoreWords IsWhiteSpace (stripComments false l) (blank .leap l) ∧
    ∀ p, (words IsWhiteSpace (stripComments true l)).length ≤ (wordsBehind IsWhiteSpace (blank p l)).length := by
  induction l with
  | nil => exact ⟨⟨fun h => h, le_rfl⟩, ⟨fun h => h, le_rfl⟩, fun _ => le_rfl⟩
  | cons c l ih =>
    obtain ⟨ihlook, ihover, ihcomment⟩ := ih
    have hcommented : ∀ (p : Pass) (d : UInt8), MoreWords IsWhiteSpace (stripComments true l) (d :: blank p l) := by
      intro p d
      refine ⟨fun hne => absurd (firstWord_inComment l) hne, ?_⟩
      rw [wordsBehind_inComment]
      exact (ihcomment p).trans (length_wordsBehind_le_cons d _)
    refine ⟨?_, ?_, fun p => ?_⟩
    · rw [blank, stripComments]
      unfold Pass.next Pass.put
      by_cases hcomment : startsComment c l = true
      · rw [if_pos hcomment, if_pos hcomment]
        exact hcommented .comment _
      rw [if_neg hcomment, if_neg hcomment]
      by_cases hsub : c = 0x1a
      · subst hsub
        rw [if_pos rfl, if_pos (.inr rfl)]
        exact .separator rfl isWhiteSpace_space ihover.words
      · rw [if_neg hsub, if_neg (not_or.mpr ⟨hcomment, hsub⟩)]
        exact ihlook.cons c
    · rw [blank, stripComments]
      split
      · exact hcommented .look c
      · exact ihlook.cons c
    · rw [blank, stripComments]
      by_cases hend : isLineEnd c = true
      · have hwhite := isWhiteSpace_of_isLineEnd hend
        have hlook : p.next c l = .look ∧ p.put c l = c := by
          cases p with
          | look => exact look_lineEnd hend l
          | leap => exact ⟨rfl, rfl⟩
          | comment => exact ⟨if_pos hend, if_pos hend⟩
        rw [if_pos hend, hlook.1, hlook.2, words_separator hwhite, wordsBehind_separator hwhite]
        exact ihlook.words
      · rw [if_neg hend]
        exact (ihcomment _).trans (length_wordsBehind_le_cons _ _)

/-- A comment that the pass steps over leaves more words than the text without it has. -/
theorem blank_skips :
    (skips .look l = true → (wordsBehind IsWhiteSpace (stripComments false l)).length <
      (wordsBehind IsWhiteSpace (blank .look l)).length) ∧
    (skips .leap l = true → (words IsWhiteSpace (stripComments false l)).length <
      (words IsWhiteSpace (blank .leap l)).length) ∧
    (skips .comment l = true → (words IsWhiteSpace (stripComments true l)).length <
      (words IsWhiteSpace (blank .comment l)).length) := by
  induction l with
  | nil =>
    refine ⟨?_, ?_, ?_⟩
    all_goals
      intro h
      cases h
  | cons c l ih =>
    obtain ⟨ihlook, ihover, ihcomment⟩ := ih
    obtain ⟨hmore, -, hbehind⟩ := blank_moreWords l
    refine ⟨fun h => ?_, fun h => ?_, fun h => ?_⟩
    · have h : skips (Pass.next c l .look) l = true := h
      rw [blank, stripComments]
      unfold Pass.next at h ⊢
      unfold Pass.put
      by_cases hcomment : startsComment c l = true
      · rw [if_pos hcomment] at h ⊢
        rw [if_pos hcomment, if_pos (.inl hcomment), wordsBehind_separator isWhiteSpace_space, wordsBehind_inComment]
        exact ihcomment h
      rw [if_neg hcomment] at h ⊢
      rw [if_neg hcomment]
      by_cases hsub : c = 0x1a
      · subst hsub
        rw [if_pos rfl] at h ⊢
        rw [if_pos (.inr rfl), wordsBehind_separator isWhiteSpace_space, wordsBehind_separator rfl]
        exact ihover h
      · rw [if_neg hsub] at h ⊢
        rw [if_neg (not_or.mpr ⟨hcomment, hsub⟩)]
        exact length_wordsBehind_lt_cons hmore (ihlook h) c
    · rw [skips, beq_self_eq_true, Bool.true_and, Bool.or_eq_true] at h
      rw [blank, stripComments]
      by_cases hcomment : startsComment c l = true
      · -- the slash that is stepped over is a word's beginning
        obtain ⟨rfl, -⟩ := startsComment_iff.mp hcomment
        rw [if_pos hcomment]
        have hput : words IsWhiteSpace (Pass.put 47 l .leap :: blank (Pass.next 47 l .leap) l) =
            (47 :: firstWord IsWhiteSpace (blank .look l)) :: wordsBehind IsWhiteSpace (blank .look l) :=
          words_letter (show ¬IsWhiteSpace 47 = true by decide) _
        rw [hput, List.length_cons]
        exact Nat.lt_succ_of_le (hbehind .look)
      · rw [if_neg hcomment]
        exact (hmore.cons c).words_lt (length_wordsBehind_lt_cons hmore (ihlook (h.resolve_left hcomment)) c)
    · have h : skips (Pass.next c l .comment) l = true := h
      rw [blank, stripComments]
      unfold Pass.next at h ⊢
      unfold Pass.put
      by_cases hend : isLineEnd c = true
      · have hwhite := isWhiteSpace_of_isLineEnd hend
        rw [if_pos hend] at h
        rw [if_pos hend, if_pos hend, if_pos hend, words_separator hwhite, words_separator hwhite]
        exact hmore.words_lt (ihlook h)
      · rw [if_neg hend] at h
        rw [if_neg hend, if_neg hend, if_neg hend, words_separator isWhiteSpace_space]
        exact ihcomment h

/-! ### What is delivered -/

/-- The file's arguments are delivered in order, with their number; where the array has no room for them the run
fails, but comes back. -/
def DeliversArguments (file : Bytes) : Prop :=
  if (arguments file).length ≤ KMaxArguments then
    ProcessCommandFile (some file) = .ok ⟨.NoError, arguments file, (arguments file).length⟩
  else ∃ a, ProcessCommandFile (some file) = .ok a ∧ a.ret ≠ .NoError

/-- What `int filesize` keeps of the file. -/
def readPart (file : Bytes) : Bytes := file.take (filesize file.length).toNat

/-- A file that is delivered: it has an `int` for its size and no more arguments than the array, it ends with white
space or in a comment, no comment is hidden behind a 0x1a, and no argument has a NUL.  Of a file whose size is no
`int`, the part that is read must have the words of the whole. -/
def Deliverable (file : Bytes) : Prop :=
  if file.length < 2147483648 then
    (arguments file).length ≤ KMaxArguments ∧ (Closed file ∨ passBehind .look file = .comment) ∧
      skips .look file = false ∧ ∀ a ∈ arguments file, 0 ∉ a
  else
    0 ≤ filesize file.length ∧ (arguments file).length ≤ KMaxArguments ∧ Closed (blank .look (readPart file)) ∧
      (words IsWhiteSpace (blank .look (readPart file))).map readCString = arguments file

theorem readCString_eq_self {b : Bytes} : readCString b = b ↔ 0 ∉ b := by
  rw [readCString, List.takeWhile_eq_self_iff]
  refine ⟨fun h hmem => ?_, fun h c hc => ?_⟩
  · simpa using h 0 hmem
  · have hne : c ≠ 0 := by
      rintro rfl
      exact h hc
    simpa using hne

theorem map_readCString_eq_self {bs : List Bytes} : bs.map readCString = bs ↔ ∀ a ∈ bs, 0 ∉ a := by
  have hid : bs.map readCString = bs ↔ bs.map readCString = bs.map id := by rw [List.map_id]
  rw [hid, List.map_inj_left]
  simp only [id, readCString_eq_self]

theorem filesize_eq {n : ℕ} (h : n < 2147483648) : filesize n = n := by
  unfold filesize
  rw [Int.bmod_def]
  omega

theorem readPart_eq {file : Bytes} (h : file.length < 2147483648) : readPart file = file := by
  rw [readPart, filesize_eq h, Int.toNat_natCast, List.take_length]

/-- The arguments are delivered where the words of the part that is read, after the first pass, are the arguments,
fit in the array and are all counted. -/
theorem deliversArguments_iff_words (file : Bytes) : DeliversArguments file ↔
    0 ≤ filesize file.length ∧ (arguments file).length ≤ KMaxArguments ∧ Closed (blank .look (readPart file)) ∧
      (words IsWhiteSpace (blank .look (readPart file))).map readCString = arguments file := by
  set text := blank .look (readPart file) with htext
  have hcall : ProcessCommandFile (some file) = if filesize file.length = 0 then .ok ⟨.NoError, [], 0⟩
      else if filesize file.length < 0 then .error .undefined
      else collect text [] 0 >>= fun r => .ok ⟨.NoError, r.1.map readCString, r.2⟩ := rfl
  by_cases hneg : filesize file.length < 0
  · rw [if_neg hneg.ne, if_pos hneg] at hcall
    refine ⟨fun h => ?_, fun h => absurd h.1 (not_le.mpr hneg)⟩
    rw [DeliversArguments, hcall] at h
    split at h
    · cases h
    · obtain ⟨a, ha, -⟩ := h
      cases ha
  have hcollect : ProcessCommandFile (some file) =
      collect text [] 0 >>= fun r => .ok ⟨.NoError, r.1.map readCString, r.2⟩ := by
    by_cases hzero : filesize file.length = 0
    · have hnil : text = [] := by
        rw [htext, readPart, hzero]
        rfl
      rw [hcall, if_pos hzero, hnil, collect_nil rfl]
      rfl
    · rw [hcall, if_neg hzero, if_neg hneg]
  obtain ⟨herror, hok⟩ := collect_words text [] 0 (Nat.zero_le _)
  rw [Nat.zero_add] at herror hok
  rw [DeliversArguments, hcollect]
  by_cases hroom : (words IsWhiteSpace text).length ≤ KMaxArguments
  · obtain ⟨m, hrun, hm⟩ := hok hroom
    rw [hrun, outcome_ok_bind, List.nil_append]
    constructor
    · intro h
      split at h
      · next hargs =>
        simp only [Except.ok.injEq, Arguments.mk.injEq, true_and] at h
        refine ⟨not_lt.mp hneg, hargs, hm.mp ?_, h.1⟩
        rw [h.2, ← h.1, List.length_map]
      · obtain ⟨a, ha, hret⟩ := h
        cases ha
        exact absurd rfl hret
    · rintro ⟨-, hargs, hclosed, hwords⟩
      rw [if_pos hargs, hm.mpr hclosed, hwords, ← hwords, List.length_map]
  · rw [herror (not_le.mp hroom)]
    refine ⟨fun h => ?_, fun h => ?_⟩
    · split at h
      · cases h
      · obtain ⟨a, ha, -⟩ := h
        cases ha
    · obtain ⟨-, hargs, -, hwords⟩ := h
      rw [← hwords, List.length_map] at hargs
      exact absurd hargs hroom

/-- **The arguments of a command file are delivered exactly when the file is deliverable.** -/
theorem ProcessCommandFile_delivers (file : Bytes) : DeliversArguments file ↔ Deliverable file := by
  rw [deliversArguments_iff_words, Deliverable]
  by_cases hsize : file.length < 2147483648
  swap
  · rw [if_neg hsize]
  have hnat : 0 ≤ filesize file.length := by
    rw [filesize_eq hsize]
    exact Int.natCast_nonneg _
  rw [if_pos hsize, readPart_eq hsize, closed_blank]
  constructor
  · rintro ⟨-, hargs, hclosed, hwords⟩
    have hskips : skips .look file = false := by
      by_contra hskips
      have hlt := (blank_moreWords file).1.words_lt ((blank_skips file).1 (Bool.not_eq_false _ ▸ hskips))
      have hlen := congrArg List.length hwords
      rw [List.length_map] at hlen
      exact hlt.ne hlen.symm
    refine ⟨hargs, hclosed, hskips, ?_⟩
    rwa [((blank_sameWords file).1 hskips).words, ← removeComments, ← arguments, map_readCString_eq_self] at hwords
  · rintro ⟨hargs, hclosed, hskips, hnul⟩
    refine ⟨hnat, hargs, hclosed, ?_⟩
    rw [((blank_sameWords file).1 hskips).words, ← removeComments, ← arguments, map_readCString_eq_self]
    exact hnul

/-- A file that ends with its last argument: the argument is stored, and not counted. -/
theorem ProcessCommandFile_loses : ¬DeliversArguments [97] := by
  rw [deliversArguments_iff_words]
  rintro ⟨-, -, hclosed, -⟩
  cases hclosed 97 rfl

end GnuPoc.Bmconv
