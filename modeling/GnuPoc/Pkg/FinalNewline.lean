import GnuPoc.Pkg.LexerEnds

/-!
# GnuPoc.Pkg.FinalNewline — the tokens of a file with a newline behind it

A file and the same file with a newline at its end are read side by side (`Beside`).  The two readings part
only where `GetNumericToken` runs to the end of the file, at which it throws: up to the first token for which it
does so, the tokens are the same (`lexText_newline_take`).
-/

namespace GnuPoc.Pkg

open GnuPoc.Lib

/-! ### The numbers that are read -/

/-- Where the loop of `ParseEscapeChars` calls `GetNumericToken`. -/
def escapeNumbers : ℕ → Lexer → List Lexer
  | 0, _ => []
  | n + 1, s =>
    if s.m_pkgChar = 60 then
      s.next :: match escapeTurn s with
        | (.ok true, s') => escapeNumbers n s'
        | _ => []
    else []

/-- Where the escapes behind a segment do so. -/
def escapesNumbers (t : StringState) (s : Lexer) : List Lexer :=
  escapeNumbers (s.m_file.length + 1) { s with m_tokenValue := s.m_tokenValue.set t.wCount 0 }

/-- Where a turn of the loop of `GetStringToken` does so. -/
def turnNumbers (t : StringState) (s : Lexer) : List Lexer :=
  match onChar 34 (readQuoted t) (pure t) s with
  | (.ok t, s) => escapesNumbers t s
  | _ => []

/-- Where the loop of `GetStringToken` does so. -/
def stringNumbers : ℕ → StringState → Lexer → List Lexer
  | 0, _, _ => []
  | n + 1, t, s =>
    turnNumbers t s ++ match stringTurn t s with
      | (.ok t, s) => if t.escapeChars ≠ 0 ∧ s.m_pkgChar = 34 then stringNumbers n t s else []
      | _ => []

/-- Where the token at a state does so. -/
def tokenNumbers (s : Lexer) : List Lexer :=
  if s.isNumber then [s]
  else if s.m_pkgChar = 34 ∨ s.m_pkgChar = 60 then stringNumbers (s.m_file.length + 2) ⟨0, false, 0⟩ s
  else []

/-- The states in which the tokens begin, on fuel. -/
def tokenStarts : ℕ → Lexer → List Lexer
  | 0, _ => []
  | n + 1, s =>
    (skipSpace s).2 :: match readLexeme s with
      | (.ok lexeme, s) =>
        if lexeme.token = .EOF_TOKEN then []
        else tokenStarts n (if lexeme.token = .comment then (skipComment s).2 else s)
      | _ => []

def textStarts (m_tokenValue : List UInt32) (text : List UInt16) : List Lexer :=
  tokenStarts (text.length + 2) (firstLexer m_tokenValue text)

/-- A number that is read for the token runs to the end of the file, be it the token or what stands behind a `<`. -/
def Lexer.NumberAtEnd (s : Lexer) : Prop := ∃ r ∈ tokenNumbers s, numberRest r.m_file = []

/-- The numbers end before the file does. -/
def Closed (numbers : List Lexer) : Prop := ∀ s ∈ numbers, numberRest s.m_file ≠ []

/-! ### Side by side -/

/-- The same state with a newline behind the file. -/
def Lexer.extended (s : Lexer) : Lexer := { s with m_file := s.m_file ++ [10] }

/-- The file, and the file with the newline, at the same place. -/
inductive Beside : Lexer → Lexer → Prop
  | inside (s : Lexer) : Beside s s.extended
  | atEnd (c : UInt32) (m_tokenValue : List UInt32) (erange : Bool) (hc : c = 0 ∨ c = 10) :
    Beside ⟨0, [], m_tokenValue, erange⟩ ⟨c, [], m_tokenValue, erange⟩

abbrev OutOfFuel (e : LexStop) : Prop := e = .outOfFuel

@[simp] theorem Lexer.extended_m_pkgChar (s : Lexer) : s.extended.m_pkgChar = s.m_pkgChar := rfl

@[simp] theorem Lexer.extended_m_file (s : Lexer) : s.extended.m_file = s.m_file ++ [10] := rfl

@[simp] theorem Lexer.extended_m_tokenValue (s : Lexer) : s.extended.m_tokenValue = s.m_tokenValue := rfl

@[simp] theorem Lexer.extended_erange (s : Lexer) : s.extended.erange = s.erange := rfl

section
variable {s s' : Lexer}

theorem Beside.memory (h : Beside s s') : s.m_tokenValue = s'.m_tokenValue := by
  cases h <;> rfl

theorem Beside.pkgChar_iff (h : Beside s s') {c : UInt32} (h0 : c ≠ 0) (h10 : c ≠ 10) :
    s.m_pkgChar = c ↔ s'.m_pkgChar = c := by
  rcases h with - | ⟨c', _, _, rfl | rfl⟩
  · rfl
  · rfl
  · exact iff_of_false (fun h => h0 h.symm) fun h => h10 h.symm

theorem Beside.eq_extended (h : Beside s s') (hs : s.m_pkgChar ≠ 0) : s' = s.extended := by
  rcases h with - | -
  · rfl
  · exact absurd rfl hs

theorem Beside.store (h : Beside s s') (f : List UInt32 → List UInt32) :
    Beside { s with m_tokenValue := f s.m_tokenValue } { s' with m_tokenValue := f s'.m_tokenValue } := by
  rcases h with - | ⟨c, _, _, hc⟩
  · exact .inside { s with m_tokenValue := f s.m_tokenValue }
  · exact .atEnd c _ _ hc

theorem Lexer.next_extended {s : Lexer} (h : s.m_file ≠ []) : s.extended.next = s.next.extended := by
  obtain ⟨c, rest, hfile⟩ := List.exists_cons_of_ne_nil h
  simp [Lexer.next, Lexer.moved, Lexer.extended, hfile]

theorem Beside.next (h : Beside s s') : Beside s.next s'.next := by
  rcases h with - | ⟨c, memory, erange, hc⟩
  · by_cases hfile : s.m_file = []
    · have hs : s.next = ⟨0, [], s.m_tokenValue, s.erange⟩ := by simp [Lexer.next, Lexer.moved, hfile]
      have hs' : s.extended.next = ⟨10, [], s.m_tokenValue, s.erange⟩ := by
        simp [Lexer.next, Lexer.moved, Lexer.extended, hfile]
      rw [hs, hs']
      exact .atEnd 10 _ _ (.inr rfl)
    · rw [Lexer.next_extended hfile]
      exact .inside s.next
  · exact .atEnd 0 _ _ (.inl rfl)

theorem getNextChar_matches (h : Beside s s') : Run.Matches OutOfFuel Beside GetNextChar GetNextChar s s' :=
  .of_ok (getNextChar_eq s) (getNextChar_eq s') h.next

theorem onChar_matches {α : Type} {m m' l l' : Lex α} {c : UInt32} (h : Beside s s') (h0 : c ≠ 0) (h10 : c ≠ 10)
    (hm : s.m_pkgChar = c → Run.Matches OutOfFuel Beside m m' s s')
    (hl : s.m_pkgChar ≠ c → Run.Matches OutOfFuel Beside l l' s s') :
    Run.Matches OutOfFuel Beside (onChar c m l) (onChar c m' l') s s' :=
  .branch (h.pkgChar_iff h0 h10) hm hl

end

/-! ### Characters that are passed -/

theorem passWhile_newline (p : UInt32 → Bool) (c : UInt32) (file : List UInt16) :
    (p (passWhile p c file).2.1 = false ∧ passWhile p c (file ++ [10]) =
      ((passWhile p c file).1, (passWhile p c file).2.1, (passWhile p c file).2.2 ++ [10])) ∨
    ((passWhile p c file).2 = (0, []) ∧ passWhile p c (file ++ [10]) =
      if p 10 then ((passWhile p c file).1 ++ [10], 0, []) else ((passWhile p c file).1, 10, [])) := by
  induction file generalizing c with
  | nil =>
    by_cases hc : p c = true
    · refine .inr ⟨by simp [passWhile, hc], ?_⟩
      by_cases h10 : p 10 = true
      · simp [passWhile, hc, h10]
      · simp [passWhile, hc, h10]
    · exact .inl (by simp [passWhile, hc])
  | cons tmp rest ih =>
    by_cases hc : p c = true
    · rcases ih tmp.toUInt32 with ⟨hp, hpass⟩ | ⟨hend, hpass⟩
      · exact .inl (by simp [passWhile, hc, hp, hpass])
      · refine .inr ⟨by simp [passWhile, hc, hend], ?_⟩
        by_cases h10 : p 10 = true
        · simp [passWhile, hc, hpass, h10]
        · simp [passWhile, hc, hpass, h10]
    · exact .inl (by simp [passWhile, hc])

section
variable {s s' : Lexer}

/-- A loop that ends at a newline and at the end of the file passes the same characters. -/
theorem getWhile_matches {p : UInt32 → Bool} (h0 : p 0 = false) (h10 : p 10 = false) (h : Beside s s') :
    Run.Matches OutOfFuel Beside (GetWhile p) (GetWhile p) s s' := by
  rcases h with - | ⟨c, memory, erange, hc⟩
  · rcases passWhile_newline p s.m_pkgChar s.m_file with ⟨-, hpass⟩ | ⟨hend, hpass⟩
    · refine .of_ok rfl ?_ (.inside _)
      simp [GetWhile, hpass, Lexer.extended]
    · rw [h10, if_neg (by simp)] at hpass
      have hs : GetWhile p s = (.ok (passWhile p s.m_pkgChar s.m_file).1,
          ⟨0, [], s.m_tokenValue, s.erange⟩) := by simp [GetWhile, hend]
      refine .of_ok hs ?_ (.atEnd 10 _ _ (.inr rfl))
      simp [GetWhile, hpass]
  · have hpc : p c = false := by rcases hc with rfl | rfl <;> assumption
    have hs : GetWhile p ⟨0, [], memory, erange⟩ = (.ok [], ⟨0, [], memory, erange⟩) := by
      simp [GetWhile, passWhile, h0]
    refine .of_ok hs ?_ (.atEnd c _ _ hc)
    simp [GetWhile, passWhile, hpc]

theorem skipSpace_beside (h : Beside s s') : Beside (skipSpace s).2 (skipSpace s').2 ∧
    (skipSpace s).2.m_pkgChar = (skipSpace s').2.m_pkgChar := by
  have heq (s : Lexer) : (skipSpace s).2 = (GetWhile (fun c => c == 10 || iswspace c) s).2 := rfl
  rw [heq, heq]
  rcases h with - | ⟨c, memory, erange, rfl | rfl⟩
  · rcases passWhile_newline (fun c => c == 10 || iswspace c) s.m_pkgChar s.m_file with ⟨-, hpass⟩ | ⟨hend, hpass⟩
    · simp only [GetWhile, Lexer.extended, hpass, and_true]
      exact .inside _
    · have hpass' := hpass.trans (if_pos (show (10 == 10 || iswspace 10) = true from rfl))
      simp only [GetWhile, Lexer.extended, hpass', hend, and_true]
      exact .atEnd 0 _ _ (.inl rfl)
  · exact ⟨.atEnd 0 _ _ (.inl rfl), rfl⟩
  · exact ⟨.atEnd 0 _ _ (.inl rfl), rfl⟩

theorem skipComment_beside (h : Beside s s') : Beside (skipComment s).2 (skipComment s').2 := by
  have hwhile := getWhile_matches (p := fun c => c != 0 && c != 10) rfl rfl h
  obtain ⟨s₁', h', hbeside⟩ := hwhile.ok _ _ rfl
  have heq : (skipComment s').2 = s₁' := congrArg Prod.snd h'
  rw [heq]
  exact hbeside

end

/-! ### Numbers and escapes -/

theorem numberTail_newline (file : List UInt16) : numberTail (file ++ [10]) = numberTail file := by
  rw [numberTail, List.takeWhile_append]
  split
  · next h =>
    have hall : file.takeWhile isNumberChar = file := (List.takeWhile_sublist _).eq_of_length h
    rw [numberTail, hall]
    exact List.append_nil file
  · rfl

theorem numberRest_newline {file : List UInt16} (h : numberRest file ≠ []) :
    numberRest (file ++ [10]) = numberRest file ++ [10] := by
  rw [numberRest, List.dropWhile_append, if_neg (by simpa [numberRest] using h), numberRest]

theorem getNumericToken_extended {s : Lexer} (h : numberRest s.m_file ≠ []) :
    GetNumericToken s.extended = ((GetNumericToken s).1, (GetNumericToken s).2.extended) ∧
      ((GetNumericToken s).1 ≠ .ok () → (GetNumericToken s).2.m_pkgChar = s.m_pkgChar) := by
  have hpassed : s.extended.passed = s.passed.extended := by
    simp [Lexer.passed, Lexer.extended, numberRest_newline h]
  have hread := readTemp_eq s
  have hread' := readTemp_eq s.extended
  rw [Lexer.extended_m_file, numberTail_newline, numberRest_newline h, hpassed, Lexer.extended_m_pkgChar] at hread'
  rw [if_neg h] at hread
  rw [if_neg (List.append_ne_nil_of_left_ne_nil h _)] at hread'
  by_cases hlen : MAX_STRING ≤ (numberTail s.m_file).length
  · rw [if_pos hlen] at hread hread'
    rw [GetNumericToken, Run.bind_error hread, Run.bind_error hread']
    exact ⟨rfl, fun _ => rfl⟩
  · rw [if_neg hlen] at hread hread'
    by_cases hlen' : MAX_STRING ≤ (numberTail s.m_file).length + 1
    · rw [if_pos hlen'] at hread hread'
      rw [GetNumericToken, Run.bind_error hread, Run.bind_error hread']
      exact ⟨rfl, fun _ => rfl⟩
    · rw [if_neg hlen'] at hread hread'
      rw [GetNumericToken, Run.bind_ok hread, Run.bind_ok hread', storeTemp_eq, storeTemp_eq]
      generalize s.m_pkgChar :: (numberTail s.m_file).map UInt16.toUInt32 = temp
      have hstored : s.passed.extended.stored temp = (s.passed.stored temp).extended := rfl
      rw [hstored, Lexer.extended_erange, Lexer.next_extended (s := s.passed.stored temp) h]
      split
      · exact ⟨rfl, fun _ => rfl⟩
      · split
        · exact ⟨rfl, fun _ => rfl⟩
        · exact ⟨rfl, fun hok => absurd rfl hok⟩

section
variable {s s' : Lexer}

theorem numberRest_ne_nil {file : List UInt16} (h : numberRest file ≠ []) : file ≠ [] := by
  rintro rfl
  exact h rfl

theorem getNumericToken_matches (h : numberRest s.m_file ≠ []) :
    Run.Matches OutOfFuel Beside GetNumericToken GetNumericToken s s.extended := by
  have hext := (getNumericToken_extended h).1
  rcases hrun : GetNumericToken s with ⟨e | a, s₁⟩
  · rw [hrun] at hext
    exact .of_error hrun hext
  · rw [hrun] at hext
    exact .of_ok hrun hext (.inside s₁)

theorem storeEscape_matches (temp : WStr) (h : Beside s s') :
    Run.Matches OutOfFuel Beside (storeEscape temp) (storeEscape temp) s s' := by
  have hstore := h.store (appendChar temp (dwNumber s.m_tokenValue))
  rw [← h.memory] at hstore
  by_cases hc : (0x80 ≤ dwNumber s.m_tokenValue && dwNumber s.m_tokenValue ≤ 0x9F) = true
  · refine .of_error (by rw [storeEscape_eq, if_pos hc]) (by rw [storeEscape_eq, ← h.memory, if_pos hc])
  · exact .of_ok (by rw [storeEscape_eq, if_neg hc]) (by rw [storeEscape_eq, ← h.memory, if_neg hc]) hstore.next

/-- The number of a turn of `ParseEscapeChars`. -/
theorem escapeNumber_extended (h : numberRest s.next.m_file ≠ []) :
    (GetNextChar >>= fun _ => GetNumericToken) s = GetNumericToken s.next ∧
      (GetNextChar >>= fun _ => GetNumericToken) s.extended =
        ((GetNumericToken s.next).1, (GetNumericToken s.next).2.extended) := by
  have hfile : s.m_file ≠ [] := by
    intro hnil
    exact numberRest_ne_nil h (by simp [hnil])
  rw [Run.bind_ok (getNextChar_eq s), Run.bind_ok (getNextChar_eq s.extended), Lexer.next_extended hfile]
  exact ⟨rfl, (getNumericToken_extended h).1⟩

theorem escapeTurn_matches (h : numberRest s.next.m_file ≠ []) :
    Run.Matches OutOfFuel Beside escapeTurn escapeTurn s s.extended := by
  obtain ⟨hrun, hrun'⟩ := escapeNumber_extended h
  rcases hnum : GetNumericToken s.next with ⟨(e | _ | _) | u, s₁⟩
  · rw [hnum] at hrun hrun'
    exact .of_ok (escapeTurn_throws hrun) (escapeTurn_throws hrun') (.inside _)
  · rw [hnum] at hrun hrun'
    exact .of_error (escapeTurn_outOfBounds hrun) (escapeTurn_outOfBounds hrun')
  · rw [hnum] at hrun
    exact .of_stop (e := .outOfFuel) (by rw [escapeTurn, hrun]) rfl
  · rw [hnum] at hrun hrun'
    have hturn := escapeTurn_ok hrun
    have hturn' := escapeTurn_ok hrun'
    by_cases hclose : s₁.m_pkgChar = 62
    · rw [if_pos hclose] at hturn
      rw [Lexer.extended_m_pkgChar, if_pos hclose] at hturn'
      have hstore := storeEscape_matches (cstring s.m_tokenValue) (.inside s₁)
      constructor
      · intro a s₂ ha
        rw [hturn']
        exact hstore.ok a s₂ (hturn.symm.trans ha)
      · intro e s₂ he
        rw [hturn']
        exact hstore.error e s₂ (hturn.symm.trans he)
    · rw [if_neg hclose] at hturn
      rw [Lexer.extended_m_pkgChar, if_neg hclose] at hturn'
      exact .of_ok hturn hturn' (.inside { s₁ with m_file := s.m_file })

theorem escapeLoop_matches {n : ℕ} (found : UInt16) (h : Beside s s') (hclosed : Closed (escapeNumbers n s)) :
    Run.Matches OutOfFuel Beside (escapeLoop n found) (escapeLoop (n + 1) found) s s' := by
  induction n generalizing s s' found with
  | zero => exact .of_stop rfl rfl
  | succ n ih =>
    refine onChar_matches h (by simp) (by simp) (fun h60 => ?_) fun _ => .pure found h
    rw [escapeNumbers, if_pos h60] at hclosed
    rw [h.eq_extended (by simp [h60])]
    refine .bind (escapeTurn_matches (hclosed _ List.mem_cons_self)) fun goesOn s₁ s₁' hturn h₁ => ?_
    refine .ite (fun hgoes => ih _ h₁ fun r hr => hclosed r (List.mem_cons_of_mem _ ?_)) fun _ => .pure found h₁
    rw [hturn, hgoes]
    exact hr

/-! ### Strings -/

theorem readEscapes_matches {t : StringState} (h : Beside s s') (h60 : s.m_pkgChar = 60)
    (hclosed : Closed (escapesNumbers t s)) :
    Run.Matches OutOfFuel Beside (readEscapes t) (readEscapes t) s s' := by
  rw [h.eq_extended (by simp [h60])]
  refine .bind (Q := fun s₁ s₁' => s₁ = { s with m_tokenValue := s.m_tokenValue.set t.wCount 0 } ∧
    s₁' = s₁.extended) (.update ⟨rfl, rfl⟩) ?_
  rintro - s₁ - - ⟨rfl, rfl⟩
  refine .bind ?_ fun escapeChars s₂ s₂' _ h₂ => .pure _ h₂
  have hloop := escapeLoop_matches 0 (.inside { s with m_tokenValue := s.m_tokenValue.set t.wCount 0 }) hclosed
  have hlen : ParseEscapeChars { s with m_tokenValue := s.m_tokenValue.set t.wCount 0 }.extended =
      escapeLoop (s.m_file.length + 1 + 1) 0 { s with m_tokenValue := s.m_tokenValue.set t.wCount 0 }.extended := by
    simp [ParseEscapeChars]
  constructor
  · intro a s₂ ha
    rw [hlen]
    exact hloop.ok a s₂ ha
  · intro e s₂ he
    rw [hlen]
    exact hloop.error e s₂ he

theorem readSegment_badString {t : StringState}
    (h : (passWhile (fun c => c != 0 && c != 34) s.m_pkgChar s.m_file).2.1 = 0) :
    ∃ s₁, readSegment t s = (.error (.throws .ErrBadString), s₁) := by
  obtain ⟨chars, s₁, hwhile, hchar⟩ : ∃ chars s₁, GetWhile (fun c => c != 0 && c != 34) s = (.ok chars, s₁) ∧
      s₁.m_pkgChar = 0 := ⟨_, _, rfl, h⟩
  rw [readSegment, Run.bind_ok hwhile, Run.bind_ok (Run.update_apply _ s₁), Run.bind_ok (Run.read_apply _ _),
    if_pos hchar]
  exact ⟨_, rfl⟩

theorem readSegment_matches (t : StringState) (h : Beside s s') :
    Run.Matches OutOfFuel Beside (readSegment t) (readSegment t) s s' := by
  rcases h with - | ⟨c, memory, erange, hc⟩
  · rcases passWhile_newline (fun c => c != 0 && c != 34) s.m_pkgChar s.m_file with ⟨-, hpass⟩ | ⟨hend, hpass⟩
    · refine .bind (Q := fun s₁ s₁' => s₁' = s₁.extended) (.of_ok rfl ?_ rfl) ?_
      · simp [GetWhile, hpass, Lexer.extended]
      rintro chars s₁ - - rfl
      refine .bind (Q := fun s₂ s₂' => s₂' = s₂.extended) (.update rfl) ?_
      rintro - s₂ - - rfl
      refine .bind (.read rfl (Beside.inside s₂)) fun c s₃ s₃' _ h₃ => ?_
      refine .ite (fun _ => .of_error rfl rfl) fun _ => ?_
      exact .bind (getNextChar_matches h₃) fun _ s₄ s₄' _ h₄ => .pure _ h₄
    · obtain ⟨s₁, hs₁⟩ := readSegment_badString (t := t) (s := s) (by rw [hend])
      obtain ⟨s₁', hs₁'⟩ := readSegment_badString (t := t) (s := s.extended) (by
        rw [Lexer.extended_m_pkgChar, Lexer.extended_m_file, hpass]
        rfl)
      exact .of_error hs₁ hs₁'
  · obtain ⟨s₁, hs₁⟩ := readSegment_badString (t := t) (s := ⟨0, [], memory, erange⟩) rfl
    obtain ⟨s₁', hs₁'⟩ := readSegment_badString (t := t) (s := ⟨c, [], memory, erange⟩) (by
      rcases hc with rfl | rfl <;> rfl)
    exact .of_error hs₁ hs₁'

theorem readQuoted_matches (t : StringState) (h : Beside s s') :
    Run.Matches OutOfFuel Beside (readQuoted t) (readQuoted t) s s' :=
  .bind (getNextChar_matches h) fun _ _ _ _ h₁ => readSegment_matches t h₁

theorem stringTurn_matches {t : StringState} (h : Beside s s') (hclosed : Closed (turnNumbers t s)) :
    Run.Matches OutOfFuel Beside (stringTurn t) (stringTurn t) s s' := by
  refine .bind (onChar_matches h (by simp) (by simp) (fun _ => readQuoted_matches t h) fun _ => .pure t h) ?_
  intro t₁ s₁ s₁' hquoted h₁
  rw [turnNumbers, hquoted] at hclosed
  exact onChar_matches h₁ (by simp) (by simp) (fun h60 => readEscapes_matches h₁ h60 hclosed) fun _ => .pure t₁ h₁

theorem stringLoop_matches {n : ℕ} {t : StringState} (h : Beside s s') (hclosed : Closed (stringNumbers n t s)) :
    Run.Matches OutOfFuel Beside (stringLoop n t) (stringLoop (n + 1) t) s s' := by
  induction n generalizing s s' t with
  | zero => exact .of_stop rfl rfl
  | succ n ih =>
    have hturn : Closed (turnNumbers t s) := fun r hr => hclosed r (List.mem_append_left _ hr)
    refine .bind (stringTurn_matches h hturn) fun t₁ s₁ s₁' hs₁ h₁ => ?_
    refine .ite (fun _ => .pure t₁ h₁) fun hne => ?_
    refine onChar_matches h₁ (by simp) (by simp) (fun h34 => ih h₁ fun r hr => ?_) fun _ => .pure t₁ h₁
    refine hclosed r (List.mem_append_right _ ?_)
    rw [hs₁]
    dsimp only
    rwa [if_pos ⟨hne, h34⟩]

theorem getStringToken_matches (hclosed : Closed (stringNumbers (s.m_file.length + 2) ⟨0, false, 0⟩ s)) :
    Run.Matches OutOfFuel Beside GetStringToken GetStringToken s s.extended := by
  have hmatches : Run.Matches OutOfFuel Beside
      (stringLoop (s.m_file.length + 2) ⟨0, false, 0⟩ >>= fun t =>
        Run.update (fun s : Lexer => { s with m_tokenValue := s.m_tokenValue.set t.wCount 0 }) >>= fun _ => pure t.done)
      (stringLoop (s.m_file.length + 2 + 1) ⟨0, false, 0⟩ >>= fun t =>
        Run.update (fun s : Lexer => { s with m_tokenValue := s.m_tokenValue.set t.wCount 0 }) >>= fun _ => pure t.done)
      s s.extended := by
    refine .bind (stringLoop_matches (.inside s) hclosed) fun t s₁ s₁' _ h₁ => ?_
    exact .bind (.update (h₁.store fun memory => memory.set t.wCount 0)) fun _ s₂ s₂' _ h₂ => .pure _ h₂
  have hlen : s.extended.m_file.length + 2 = s.m_file.length + 2 + 1 := by simp
  constructor
  · intro a s₁ ha
    rw [GetStringToken, hlen]
    exact hmatches.ok a s₁ ha
  · intro e s₁ he
    rw [GetStringToken, hlen]
    exact hmatches.error e s₁ he

/-! ### Tokens -/

theorem stringValue_matches (token : WStr → Token) (h : Beside s s') :
    Run.Matches OutOfFuel Beside (stringValue token) (stringValue token) s s' := .read (by rw [h.memory]) h

theorem getAlphaNumericToken_matches (h : Beside s s') :
    Run.Matches OutOfFuel Beside GetAlphaNumericToken GetAlphaNumericToken s s' :=
  .bind (getWhile_matches rfl rfl h) fun chars _ _ _ h₁ =>
    .update (h₁.store fun memory => (storeChars chars 0 memory).2.set (storeChars chars 0 []).1 0)

theorem greaterToken_matches (h : Beside s s') : Run.Matches OutOfFuel Beside greaterToken greaterToken s s' := by
  refine .bind (getNextChar_matches h) fun _ s₁ s₁' _ h₁ => ?_
  refine onChar_matches h₁ (by simp) (by simp) (fun _ => ?_) fun _ => .pure _ h₁
  exact .bind (getNextChar_matches h₁) fun _ _ _ _ h₂ => .pure _ h₂

theorem lessToken_matches (h : Beside s s') : Run.Matches OutOfFuel Beside lessToken lessToken s s' := by
  refine .bind (getNextChar_matches h) fun _ s₁ s₁' _ h₁ => ?_
  refine onChar_matches h₁ (by simp) (by simp) (fun _ => ?_) fun _ => ?_
  · exact .bind (getNextChar_matches h₁) fun _ _ _ _ h₂ => .pure _ h₂
  · refine onChar_matches h₁ (by simp) (by simp) (fun _ => ?_) fun _ => .pure _ h₁
    exact .bind (getNextChar_matches h₁) fun _ _ _ _ h₂ => .pure _ h₂

theorem isNumber_extended (s : Lexer) : s.extended.isNumber = s.isNumber := by
  rw [Lexer.isNumber, Lexer.isNumber]
  rcases hfile : s.m_file with - | ⟨tmp, rest⟩
  · simp only [Lexer.extended, hfile, List.nil_append, firstChar_cons, firstChar_nil]
    rfl
  · simp [Lexer.extended, hfile]

theorem tokenHere_matches (hclosed : Closed (tokenNumbers s)) :
    Run.Matches OutOfFuel Beside tokenHere tokenHere s s.extended := by
  refine .bind (Q := fun s₁ s₁' => s₁ = s ∧ s₁' = s.extended) (.read rfl ⟨rfl, rfl⟩) ?_
  rintro c s₁ - hc ⟨hs₁, rfl⟩
  obtain rfl : s.m_pkgChar = c := by simpa using congrArg Prod.fst hc
  rw [hs₁]
  refine .bind (Q := fun s₁ s₁' => s₁ = s ∧ s₁' = s.extended)
    (.of_ok (isNumericToken_eq s) ((isNumericToken_eq s.extended).trans (by rw [isNumber_extended])) ⟨rfl, rfl⟩) ?_
  rintro isNumber s₂ - hnumber ⟨hs₂, rfl⟩
  obtain rfl : s.isNumber = isNumber := by simpa [isNumericToken_eq] using congrArg Prod.fst hnumber
  rw [hs₂]
  rw [tokenNumbers] at hclosed
  refine .ite (fun _ => .pure _ (.inside s)) fun _ => ?_
  refine .ite (fun h => ?_) fun h => ?_
  · rw [if_pos h] at hclosed
    refine .bind (getNumericToken_matches (hclosed s (by simp))) fun _ s₁ s₁' _ h₁ => ?_
    exact .read (by rw [h₁.memory]) h₁
  rw [if_neg h] at hclosed
  refine .ite (fun _ => ?_) fun _ => ?_
  · exact .bind (getAlphaNumericToken_matches (.inside s)) fun _ _ _ _ h₁ => stringValue_matches _ h₁
  refine .ite (fun h34 => ?_) fun h34 => ?_
  · rw [if_pos (.inl h34)] at hclosed
    exact .bind (getStringToken_matches hclosed) fun _ _ _ _ h₁ => stringValue_matches _ h₁
  refine .ite (fun _ => greaterToken_matches (.inside s)) fun _ => ?_
  refine .ite (fun h60 => ?_) fun _ => ?_
  · rw [if_pos (.inr h60)] at hclosed
    refine .bind (getStringToken_matches hclosed) fun _ _ _ _ h₁ => ?_
    exact .ite (fun _ => stringValue_matches _ h₁) fun _ => lessToken_matches h₁
  · refine .bind (.read rfl (Beside.inside s)) fun _ _ _ _ h₁ => ?_
    exact .bind (getNextChar_matches h₁) fun _ _ _ _ h₂ => .pure _ h₂

theorem nextToken_matches (h : Beside s s') (hclosed : Closed (tokenNumbers (skipSpace s).2)) :
    Run.Matches OutOfFuel Beside tokenHere tokenHere (skipSpace s).2 (skipSpace s').2 := by
  obtain ⟨hbeside, hchar⟩ := skipSpace_beside h
  generalize (skipSpace s).2 = s₁ at hbeside hchar hclosed
  generalize (skipSpace s').2 = s₁' at hbeside hchar
  rcases hbeside with ⟨_⟩ | ⟨c, memory, erange, hc⟩
  · exact tokenHere_matches hclosed
  · obtain rfl : 0 = c := hchar
    exact .of_ok rfl rfl (.atEnd 0 _ _ hc)

end

/-! ### Files -/

theorem readLexeme_of_error {s s₁ : Lexer} {e : LexStop} (h : tokenHere (skipSpace s).2 = (.error e, s₁)) :
    readLexeme s = (.error e, s₁) := by
  obtain ⟨s₀, hs₀⟩ := skipSpace_eq s
  rw [hs₀] at h
  rw [readLexeme, Run.bind_ok hs₀, Run.bind_ok (Run.read_apply _ s₀), Run.bind_error h]

theorem readLexeme_of_ok {s s₁ : Lexer} {t : Token} (h : tokenHere (skipSpace s).2 = (.ok t, s₁)) :
    ∃ passed, readLexeme s = (.ok ⟨t, passed⟩, s₁) := by
  obtain ⟨s₀, hs₀⟩ := skipSpace_eq s
  rw [hs₀] at h
  rw [readLexeme, Run.bind_ok hs₀, Run.bind_ok (Run.read_apply _ s₀), Run.bind_ok h, Run.bind_ok (Run.read_apply _ s₁)]
  exact ⟨_, rfl⟩

/-- Where the next token begins. -/
def Lexer.behind (s : Lexer) (lexeme : Lexeme) : Lexer := if lexeme.token = .comment then (skipComment s).2 else s

/-- One token, for which no number is read to the end of the file. -/
theorem readLexeme_newline {s s' s₁ : Lexer} {lexeme : Lexeme} (h : Beside s s')
    (hclosed : Closed (tokenNumbers (skipSpace s).2)) (hread : readLexeme s = (.ok lexeme, s₁)) :
    ∃ lexeme' s₁', readLexeme s' = (.ok lexeme', s₁') ∧ lexeme'.token = lexeme.token ∧
      Beside (s₁.behind lexeme) (s₁'.behind lexeme') := by
  obtain ⟨s₁', htoken', h₁⟩ := (nextToken_matches h hclosed).ok _ _ (readLexeme_ok hread)
  obtain ⟨passed, hread'⟩ := readLexeme_of_ok htoken'
  refine ⟨_, s₁', hread', rfl, ?_⟩
  unfold Lexer.behind
  split
  · exact skipComment_beside h₁
  · exact h₁

/-- As long as no number is read to the end of the file, the tokens are the same, and so is the end. -/
theorem lexLoop_newline {n : ℕ} {s s' : Lexer} (h : Beside s s')
    (hclosed : Closed ((tokenStarts n s).flatMap tokenNumbers)) (hends : (lexLoop n s).2 ≠ some .outOfFuel) :
    (lexLoop (n + 1) s').1.map Lexeme.token = (lexLoop n s).1.map Lexeme.token ∧
      (lexLoop (n + 1) s').2 = (lexLoop n s).2 := by
  induction n generalizing s s' with
  | zero => exact absurd rfl hends
  | succ n ih =>
    have hhere : Closed (tokenNumbers (skipSpace s).2) := fun r hr =>
      hclosed r (List.mem_flatMap.mpr ⟨_, List.mem_cons_self, hr⟩)
    rw [lexLoop, lexLoop]
    rw [lexLoop] at hends
    rcases hread : readLexeme s with ⟨e | lexeme, s₁⟩
    · rw [hread] at hends
      rcases htoken : tokenHere (skipSpace s).2 with ⟨e' | t, s₂⟩
      · rw [readLexeme_of_error htoken] at hread
        obtain ⟨rfl, rfl⟩ : e' = e ∧ s₂ = s₁ := by simpa using hread
        rcases (nextToken_matches h hhere).error e' s₂ htoken with rfl | ⟨s₂', htoken'⟩
        · exact absurd rfl hends
        · rw [readLexeme_of_error htoken']
          exact ⟨rfl, rfl⟩
      · obtain ⟨passed, hread'⟩ := readLexeme_of_ok htoken
        rw [hread'] at hread
        simp at hread
    · obtain ⟨lexeme', s₁', hread', htoken, hbeside⟩ := readLexeme_newline h hhere hread
      rw [hread']
      rw [hread] at hends
      dsimp only at hends ⊢
      rw [htoken]
      by_cases hend : lexeme.token = .EOF_TOKEN
      · rw [if_pos hend, if_pos hend]
        exact ⟨rfl, rfl⟩
      · rw [if_neg hend] at hends ⊢
        rw [if_neg hend]
        have hrest : Closed ((tokenStarts n (s₁.behind lexeme)).flatMap tokenNumbers) := by
          intro r hr
          refine hclosed r ?_
          rw [tokenStarts, hread]
          dsimp only
          rw [if_neg hend, List.flatMap_cons]
          exact List.mem_append_right _ hr
        obtain ⟨htokens, hstop⟩ := ih hbeside hrest hends
        rw [Lexer.behind, htoken] at htokens hstop
        exact ⟨by rw [List.map_cons, List.map_cons, htoken, htokens]; rfl, hstop⟩

/-- The tokens in front of any that no number is read to the end of the file for. -/
theorem lexLoop_newline_take {k n : ℕ} {s s' : Lexer} (h : Beside s s') (hk : k < (tokenStarts n s).length)
    (hclosed : Closed (((tokenStarts n s).take k).flatMap tokenNumbers)) : ∃ tokens rest rest', tokens.length = k ∧
      (lexLoop n s).1.map Lexeme.token = tokens ++ rest ∧ (lexLoop (n + 1) s').1.map Lexeme.token = tokens ++ rest' := by
  induction k generalizing n s s' with
  | zero => exact ⟨[], _, _, rfl, rfl, rfl⟩
  | succ k ih =>
    rcases n with - | n
    · simp [tokenStarts] at hk
    rw [tokenStarts] at hk hclosed
    rw [lexLoop, lexLoop]
    have hhere : Closed (tokenNumbers (skipSpace s).2) := fun r hr =>
      hclosed r (List.mem_flatMap.mpr ⟨_, List.mem_cons_self, hr⟩)
    -- a token that begins behind another one has a token in front of it
    rcases hread : readLexeme s with ⟨e | lexeme, s₁⟩
    · rw [hread] at hk
      simp at hk
    rw [hread] at hk hclosed
    dsimp only at hk hclosed ⊢
    by_cases hend : lexeme.token = .EOF_TOKEN
    · rw [if_pos hend] at hk
      simp at hk
    rw [if_neg hend] at hk hclosed
    obtain ⟨lexeme', s₁', hread', htoken, hbeside⟩ := readLexeme_newline h hhere hread
    have hrest : Closed (((tokenStarts n (s₁.behind lexeme)).take k).flatMap tokenNumbers) := by
      intro r hr
      refine hclosed r ?_
      rw [List.take_succ_cons, List.flatMap_cons]
      exact List.mem_append_right _ hr
    obtain ⟨tokens, rest, rest', hlen, hrest, hrest'⟩ := ih hbeside (Nat.lt_of_succ_lt_succ hk) hrest
    rw [Lexer.behind] at hrest hrest'
    refine ⟨lexeme.token :: tokens, rest, rest', congrArg (· + 1) hlen, ?_, ?_⟩
    · rw [if_neg hend, List.map_cons, hrest]
      rfl
    · rw [hread']
      dsimp only
      rw [if_neg (htoken ▸ hend), List.map_cons, hrest', htoken]
      rfl

theorem firstLexer_beside (m_tokenValue : List UInt32) (text : List UInt16) :
    Beside (firstLexer m_tokenValue text) (firstLexer m_tokenValue (text ++ [10])) := by
  have hnext : Beside (Lexer.next ⟨0, text, m_tokenValue, false⟩) (Lexer.next ⟨0, text ++ [10], m_tokenValue, false⟩) :=
    (Beside.inside ⟨0, text, m_tokenValue, false⟩).next
  have hmark := hnext.pkgChar_iff (c := 0xFEFF) (by simp) (by simp)
  rw [firstLexer, firstLexer]
  by_cases hc : (Lexer.next ⟨0, text, m_tokenValue, false⟩).m_pkgChar = 0xFEFF
  · rw [if_pos hc, if_pos (hmark.mp hc)]
    exact hnext.next
  · rw [if_neg hc, if_neg fun h => hc (hmark.mpr h)]
    exact hnext

theorem closed_of_not_numberAtEnd {starts : List Lexer} (h : ∀ s ∈ starts, ¬ s.NumberAtEnd) :
    Closed (starts.flatMap tokenNumbers) := by
  intro r hr hrest
  obtain ⟨s, hs, hr⟩ := List.mem_flatMap.mp hr
  exact h s hs ⟨r, hr, hrest⟩

section
variable {m_tokenValue : List UInt32} {text : List UInt16}

/-- A newline at the end changes nothing where every number that is read ends before the file does. -/
theorem lexText_newline (h : ∀ s ∈ textStarts m_tokenValue text, ¬ s.NumberAtEnd) :
    (lexText m_tokenValue (text ++ [10])).1.map Lexeme.token = (lexText m_tokenValue text).1.map Lexeme.token ∧
      (lexText m_tokenValue (text ++ [10])).2 = (lexText m_tokenValue text).2 := by
  have hlen : (text ++ [10]).length + 2 = text.length + 2 + 1 := by simp
  rw [lexText, hlen]
  exact lexLoop_newline (firstLexer_beside m_tokenValue text) (closed_of_not_numberAtEnd h) (lexText_ends m_tokenValue text)

/-- It changes nothing in front of the first number that does not. -/
theorem lexText_newline_take {k : ℕ} (hk : k < (textStarts m_tokenValue text).length)
    (h : ∀ s ∈ (textStarts m_tokenValue text).take k, ¬ s.NumberAtEnd) : ∃ tokens rest rest', tokens.length = k ∧
      (lexText m_tokenValue text).1.map Lexeme.token = tokens ++ rest ∧
      (lexText m_tokenValue (text ++ [10])).1.map Lexeme.token = tokens ++ rest' := by
  have hlen : (text ++ [10]).length + 2 = text.length + 2 + 1 := by simp
  rw [lexText, lexText, hlen]
  exact lexLoop_newline_take (firstLexer_beside m_tokenValue text) hk (closed_of_not_numberAtEnd h)

end

end GnuPoc.Pkg
