import GnuPoc.Pkg.NextToken
import GnuPoc.Pkg.StringToken

/-!
# GnuPoc.Pkg.LexerEnds — the lexical analyzer comes to an end

Every turn of a loop leaves less of the file, so that the fuel of the loops is enough (`lexText_ends`).
-/

namespace GnuPoc.Pkg

open GnuPoc.Lib

/-! ### What is left -/

/-- The characters from the current one on; at the end of the file there is none. -/
def Lexer.left (s : Lexer) : ℕ := s.m_file.length + if s.m_pkgChar = 0 then 0 else 1

/-- The run does not stop for want of fuel. -/
def Ends {α : Type} (m : Lex α) (s : Lexer) : Prop := (m s).1 ≠ .error .outOfFuel

section
variable {α β : Type} {m : Lex α} {f : α → Lex β} {s s' : Lexer}

theorem Ends.bind (hm : Ends m s) (hf : Run.After m (fun a s' => Ends (f a) s') s) : Ends (m >>= f) s := by
  rw [Ends, Run.bind_apply]
  rcases h : m s with ⟨e | a, s₁⟩
  · rw [Ends, h] at hm
    intro he
    exact hm (by rw [Except.error.inj he])
  · exact hf a s₁ h

theorem Ends.of_ok {a : α} (h : m s = (.ok a, s')) : Ends m s := by
  rw [Ends, h]
  simp

theorem ends_getNextChar (s : Lexer) : Ends GetNextChar s := .of_ok (getNextChar_eq s)

theorem Lexer.left_of_ne_zero (h : s.m_pkgChar ≠ 0) : s.left = s.m_file.length + 1 := by
  rw [Lexer.left, if_neg h]

theorem Lexer.left_le (s : Lexer) : s.left ≤ s.m_file.length + 1 := by
  rw [Lexer.left]
  split <;> omega

theorem Lexer.left_next_le (s : Lexer) : s.next.left ≤ s.m_file.length := by
  rcases hfile : s.m_file with - | ⟨c, rest⟩
  · simp [Lexer.left, Lexer.next, hfile]
  · have := s.next.left_le
    simpa [hfile] using this

theorem Lexer.left_next_le_left (s : Lexer) : s.next.left ≤ s.left := by
  have hle := s.left_next_le
  have hfile : s.m_file.length ≤ s.left := Nat.le_add_right _ _
  omega

theorem left_passWhile (p : UInt32 → Bool) (s : Lexer) :
    (GetWhile p s).2.left ≤ s.left ∧ (p s.m_pkgChar = true → (GetWhile p s).2.left ≤ s.m_file.length) := by
  obtain ⟨c, file, memory, erange⟩ := s
  induction file generalizing c with
  | nil =>
    by_cases hc : p c = true
    · simp [GetWhile, passWhile, hc, Lexer.left]
    · simp [GetWhile, passWhile, hc, Lexer.left]
  | cons tmp rest ih =>
    by_cases hc : p c = true
    · have hrest := (ih tmp.toUInt32).1
      have hle := Lexer.left_le ⟨tmp.toUInt32, rest, memory, erange⟩
      simp only [GetWhile, passWhile, hc, if_true] at hrest hle ⊢
      refine ⟨?_, fun _ => ?_⟩
      · refine (hrest.trans hle).trans ?_
        simp [Lexer.left]
      · exact hrest.trans hle
    · simp [GetWhile, passWhile, hc]

end

/-! ### Numbers and escapes -/

theorem ends_getNumericToken (s : Lexer) : Ends GetNumericToken s := by
  refine .bind ?_ fun temp s₁ _ => ?_
  · rw [Ends, readTemp_eq]
    split
    · simp
    · split
      · simp
      · split <;> simp
  · change Ends (storeTemp temp) s₁
    rw [Ends, storeTemp_eq]
    split
    · simp
    · split <;> simp

theorem ends_storeEscape (temp : WStr) (s : Lexer) : Ends (storeEscape temp) s := by
  rw [Ends, storeEscape_eq]
  split <;> simp

theorem ends_escapeTurn (s : Lexer) : Ends escapeTurn s := by
  have hnum : Ends (GetNextChar >>= fun _ => GetNumericToken) s :=
    .bind (ends_getNextChar s) fun _ s₁ _ => ends_getNumericToken s₁
  rcases hrun : (GetNextChar >>= fun _ => GetNumericToken) s with ⟨(e | _ | _) | u, s₁⟩
  · exact .of_ok (escapeTurn_throws hrun)
  · rw [Ends, escapeTurn_outOfBounds hrun]
    simp
  · rw [Ends, hrun] at hnum
    exact absurd rfl hnum
  · rw [Ends, escapeTurn_ok hrun]
    split
    · exact ends_storeEscape _ s₁
    · simp

variable {s s' : Lexer}

theorem escapeTurn_shorter (h : escapeTurn s = (.ok true, s')) : s'.m_file.length < s.m_file.length := by
  rcases hrun : (GetNextChar >>= fun _ => GetNumericToken) s with ⟨(e | _ | _) | u, s₁⟩
  · rw [escapeTurn_throws hrun] at h
    simp at h
  · rw [escapeTurn_outOfBounds hrun] at h
    simp at h
  · rw [escapeTurn, hrun] at h
    simp at h
  · rw [escapeTurn_ok hrun] at h
    rw [Run.bind_ok (getNextChar_eq s)] at hrun
    have hnum := (getNumericToken_eq_ok hrun).2
    simp only [Lexer.next_m_file, List.length_tail] at hnum
    split at h
    · have honward := onward_storeEscape (cstring s.m_tokenValue) s₁
      rw [h] at honward
      change s'.m_file.length ≤ s₁.m_file.length at honward
      omega
    · simp at h

theorem ends_escapeLoop {n : ℕ} {s : Lexer} (found : UInt16) (hn : s.m_file.length < n) :
    Ends (escapeLoop n found) s := by
  induction n generalizing s found with
  | zero => omega
  | succ n ih =>
    by_cases h60 : s.m_pkgChar = 60
    · rw [Ends, escapeLoop, onChar_pos h60]
      refine Ends.bind (ends_escapeTurn s) fun goesOn s₁ hturn => ?_
      rcases goesOn with - | -
      · exact .of_ok rfl
      · have := escapeTurn_shorter hturn
        exact ih _ (by omega)
    · rw [Ends, escapeLoop, onChar_neg h60]
      simp

theorem escapeLoop_shorter {n : ℕ} {found escapeChars : UInt16} {s s' : Lexer}
    (h : escapeLoop n found s = (.ok escapeChars, s')) (hne : escapeChars ≠ found) :
    s'.m_file.length < s.m_file.length := by
  rcases n with - | n
  · simp [escapeLoop] at h
  · rw [escapeLoop] at h
    by_cases h60 : s.m_pkgChar = 60
    · rw [onChar_pos h60] at h
      obtain ⟨goesOn, s₁, hturn, h⟩ := Run.ok_of_bind h
      rcases goesOn with - | -
      · simp only [Bool.false_eq_true, if_false, Run.pure_apply, Prod.mk.injEq, Except.ok.injEq] at h
        exact absurd h.1.symm hne
      · rw [if_pos rfl] at h
        have hturn := escapeTurn_shorter hturn
        have honward := onward_escapeLoop n (found + 1) s₁
        rw [h] at honward
        change s'.m_file.length ≤ s₁.m_file.length at honward
        omega
    · rw [onChar_neg h60] at h
      simp only [Run.pure_apply, Prod.mk.injEq, Except.ok.injEq] at h
      exact absurd h.1.symm hne

/-! ### Strings -/

theorem ends_readQuoted (t : StringState) (s : Lexer) : Ends (readQuoted t) s := by
  refine .bind (ends_getNextChar s) fun _ s₁ _ => ?_
  refine .bind (.of_ok rfl) fun chars s₂ _ => .bind (.of_ok rfl) fun _ s₃ _ => .bind (.of_ok rfl) fun c s₄ _ => ?_
  dsimp only
  split
  · simp [Ends]
  · exact .bind (ends_getNextChar s₄) fun _ s₅ _ => .of_ok rfl

theorem ends_readEscapes (t : StringState) (s : Lexer) : Ends (readEscapes t) s := by
  refine .bind (.of_ok rfl) fun _ s₁ _ => .bind ?_ fun escapeChars s₂ _ => .of_ok rfl
  exact ends_escapeLoop 0 (Nat.lt_succ_self _)

theorem ends_onChar {α : Type} {c : UInt32} {m m' : Lex α} {s : Lexer} (hm : Ends m s) (hm' : Ends m' s) :
    Ends (onChar c m m') s := by
  rw [Ends, onChar, Run.branch]
  split
  · exact hm
  · exact hm'

theorem ends_stringTurn (t : StringState) (s : Lexer) : Ends (stringTurn t) s :=
  .bind (ends_onChar (ends_readQuoted t s) (.of_ok rfl)) fun t₁ s₁ _ => ends_onChar (ends_readEscapes t₁ s₁) (.of_ok rfl)

theorem readEscapes_shorter {t t' : StringState} {s s' : Lexer} (h : readEscapes t s = (.ok t', s'))
    (hne : t'.escapeChars ≠ 0) : s'.m_file.length < s.m_file.length := by
  obtain ⟨⟨⟩, s₁, hset, h⟩ := Run.ok_of_bind h
  obtain ⟨-, rfl⟩ := Prod.mk.inj hset
  obtain ⟨escapeChars, s₂, hloop, h⟩ := Run.ok_of_bind h
  simp only [Run.pure_apply, Prod.mk.injEq, Except.ok.injEq] at h
  obtain ⟨rfl, rfl⟩ := h
  refine escapeLoop_shorter (s := { s with m_tokenValue := s.m_tokenValue.set t.wCount 0 }) hloop ?_
  rintro rfl
  exact hne (by simp [countEscapes])

theorem stringTurn_shorter {t t' : StringState} {s s' : Lexer} (h : stringTurn t s = (.ok t', s'))
    (hs : s.m_pkgChar = 34 ∨ (s.m_pkgChar = 60 ∧ t'.escapeChars ≠ 0)) : s'.m_file.length < s.m_file.length := by
  obtain ⟨t₁, s₁, hquoted, h⟩ := Run.ok_of_bind h
  rcases hs with h34 | ⟨h60, hne⟩
  · rw [onChar_pos h34] at hquoted
    have hlt := readQuoted_shorter hquoted
    have honward := onward_onChar 60 (onward_readEscapes t₁) (.pure onward_refl t₁) s₁
    rw [h] at honward
    exact honward.trans_lt hlt
  · rw [onChar_neg (by simp [h60])] at hquoted
    simp only [Run.pure_apply, Prod.mk.injEq, Except.ok.injEq] at hquoted
    obtain ⟨rfl, rfl⟩ := hquoted
    rw [onChar_pos h60] at h
    exact readEscapes_shorter h hne

theorem ends_stringLoop {n : ℕ} {t : StringState} {s : Lexer} (hs : s.m_pkgChar = 34 ∨ s.m_pkgChar = 60)
    (hn : s.m_file.length < n) : Ends (stringLoop n t) s := by
  induction n generalizing s t with
  | zero => omega
  | succ n ih =>
    refine .bind (ends_stringTurn t s) fun t₁ s₁ hturn => ?_
    by_cases hzero : t₁.escapeChars = 0
    · exact @Ends.of_ok _ _ s₁ s₁ t₁ (by rw [if_pos hzero, Run.pure_apply])
    · have hlt := stringTurn_shorter hturn (hs.imp_right fun h60 => ⟨h60, hzero⟩)
      dsimp only
      rw [if_neg hzero]
      by_cases h34 : s₁.m_pkgChar = 34
      · rw [Ends, onChar_pos h34]
        exact ih (.inl h34) (by omega)
      · rw [Ends, onChar_neg h34]
        simp

theorem ends_getStringToken {s : Lexer} (hs : s.m_pkgChar = 34 ∨ s.m_pkgChar = 60) : Ends GetStringToken s :=
  Ends.bind (ends_stringLoop hs (by omega)) fun _ _ _ => .bind (.of_ok rfl) fun _ _ _ => .of_ok rfl

theorem getStringToken_shorter {done : Bool} (h : GetStringToken s = (.ok done, s'))
    (hs : s.m_pkgChar = 34 ∨ (s.m_pkgChar = 60 ∧ done = true)) : s'.m_file.length < s.m_file.length := by
  obtain ⟨t, s₁, hloop, h⟩ := Run.ok_of_bind h
  obtain ⟨⟨⟩, s₂, hset, h⟩ := Run.ok_of_bind h
  obtain ⟨-, rfl⟩ := Prod.mk.inj hset
  obtain ⟨hdone, rfl⟩ := Prod.mk.inj h
  obtain ⟨t₂, s₂, hturn, hrest⟩ := Run.ok_of_bind hloop
  have honward : s₁.m_file.length ≤ s₂.m_file.length := by
    have := onward_loopEnd (s.m_file.length + 1) t₂ s₂
    rwa [show loopEnd _ t₂ s₂ = (.ok t, s₁) from hrest] at this
  refine honward.trans_lt (stringTurn_shorter hturn ?_)
  refine hs.imp_right fun ⟨h60, hdone'⟩ => ⟨h60, fun hzero => ?_⟩
  have hfalse : t₂.done = false := by
    obtain ⟨t₁, s₃, hquoted, hescapes⟩ := Run.ok_of_bind hturn
    rw [onChar_neg (by simp [h60])] at hquoted
    simp only [Run.pure_apply, Prod.mk.injEq, Except.ok.injEq] at hquoted
    obtain ⟨rfl, rfl⟩ := hquoted
    rw [onChar_pos h60] at hescapes
    obtain ⟨⟨⟩, s₃, -, hescapes⟩ := Run.ok_of_bind hescapes
    obtain ⟨escapeChars, s₄, -, hescapes⟩ := Run.ok_of_bind hescapes
    simp only [Run.pure_apply, Prod.mk.injEq, Except.ok.injEq] at hescapes
    obtain ⟨rfl, -⟩ := hescapes
    rw [countEscapes_escapeChars] at hzero
    rw [countEscapes, if_pos hzero]
  rw [if_pos hzero] at hrest
  simp only [Run.pure_apply, Prod.mk.injEq, Except.ok.injEq] at hrest
  rw [← hrest.1, hfalse, hdone'] at hdone
  simp at hdone

/-! ### Tokens -/

theorem ends_lessToken (s : Lexer) : Ends lessToken s :=
  .bind (ends_getNextChar s) fun _ s₁ _ => ends_onChar (.bind (ends_getNextChar s₁) fun _ _ _ => .of_ok rfl)
    (ends_onChar (.bind (ends_getNextChar s₁) fun _ _ _ => .of_ok rfl) (.of_ok rfl))

theorem ends_greaterToken (s : Lexer) : Ends greaterToken s :=
  .bind (ends_getNextChar s) fun _ s₁ _ => ends_onChar (.bind (ends_getNextChar s₁) fun _ _ _ => .of_ok rfl) (.of_ok rfl)

theorem left_onChar {c : UInt32} {t t' : Token} {m : Lex Token} {s s' : Lexer}
    (h : onChar c (GetNextChar >>= fun _ => pure t) m s = (.ok t', s'))
    (hm : m s = (.ok t', s') → s'.left ≤ s.left) : s'.left ≤ s.left := by
  by_cases hc : s.m_pkgChar = c
  · rw [onChar_pos hc, Run.bind_ok (getNextChar_eq s)] at h
    simp only [Run.pure_apply, Prod.mk.injEq, Except.ok.injEq] at h
    rw [← h.2]
    exact s.left_next_le_left
  · rw [onChar_neg hc] at h
    exact hm h

theorem left_pure {t t' : Token} {s s' : Lexer} (h : (pure t : Lex Token) s = (.ok t', s')) : s'.left ≤ s.left := by
  simp only [Run.pure_apply, Prod.mk.injEq, Except.ok.injEq] at h
  rw [h.2]

theorem left_greaterToken {t : Token} (h : greaterToken s = (.ok t, s')) : s'.left ≤ s.m_file.length := by
  rw [greaterToken, Run.bind_ok (getNextChar_eq s)] at h
  exact (left_onChar h left_pure).trans s.left_next_le

theorem left_lessToken {t : Token} (h : lessToken s = (.ok t, s')) : s'.left ≤ s.m_file.length := by
  rw [lessToken, Run.bind_ok (getNextChar_eq s)] at h
  exact (left_onChar h fun h => left_onChar h left_pure).trans s.left_next_le

theorem onward_getStringToken : Run.Keeps Onward GetStringToken := by
  intro s
  have hrun : Run.Keeps Onward (stringLoop (s.m_file.length + 2) ⟨0, false, 0⟩ >>= fun t =>
      Run.update (fun s : Lexer => { s with m_tokenValue := s.m_tokenValue.set t.wCount 0 }) >>= fun _ =>
        pure t.done) :=
    .bind onward_trans (onward_stringLoop _ _) fun t =>
      .bind onward_trans (.update fun s => le_refl _) fun _ => .pure onward_refl _
  exact hrun s

theorem ends_tokenHere (s : Lexer) : Ends tokenHere s := by
  refine tokenHere_cases (motive := fun r => r.1 ≠ .error .outOfFuel) ?_ ?_ ?_ ?_ ?_ ?_ ?_
  · simp
  · rintro - -
    exact Ends.bind (ends_getNumericToken s) fun _ _ _ => .of_ok rfl
  · rintro - -
    exact Ends.bind (.of_ok rfl) fun _ _ _ => .of_ok rfl
  · intro h34
    exact Ends.bind (ends_getStringToken (.inl h34)) fun _ _ _ => .of_ok rfl
  · rintro -
    exact ends_greaterToken s
  · intro h60
    refine Ends.bind (ends_getStringToken (.inr h60)) fun isString s₁ _ => ?_
    rcases isString with - | -
    · exact ends_lessToken s₁
    · exact .of_ok rfl
  · simp

/-- Every token but the last takes something of the file. -/
theorem left_tokenHere {t : Token} (h : tokenHere s = (.ok t, s')) (ht : t ≠ .EOF_TOKEN) : s'.left < s.left := by
  have hshort : s.m_pkgChar ≠ 0 → s'.left ≤ s.m_file.length → s'.left < s.left := fun hne hle => by
    rw [Lexer.left_of_ne_zero hne]
    omega
  revert h
  refine tokenHere_cases (motive := fun r => r = (.ok t, s') → _) ?_ ?_ ?_ ?_ ?_ ?_ ?_
  · rintro - h
    simp only [Prod.mk.injEq, Except.ok.injEq] at h
    exact absurd h.1.symm ht
  · rintro hne - h
    obtain ⟨⟨⟩, s₁, hnum, h⟩ := Run.ok_of_bind h
    obtain ⟨-, rfl⟩ := Prod.mk.inj h
    have hfile := (getNumericToken_eq_ok hnum).2
    have hle := s₁.left_le
    exact hshort hne (by omega)
  · rintro - halpha h
    have hne : s.m_pkgChar ≠ 0 := by
      intro h0
      simp [h0, iswalpha] at halpha
    obtain ⟨⟨⟩, s₁, hname, h⟩ := Run.ok_of_bind h
    obtain ⟨-, rfl⟩ := Prod.mk.inj h
    obtain ⟨chars, s₂, hwhile, hname⟩ := Run.ok_of_bind hname
    obtain ⟨-, rfl⟩ := Prod.mk.inj hname
    have hleft := (left_passWhile (fun c => c == 95 || iswalnum c) s).2 (by simp [iswalnum, halpha])
    rw [hwhile] at hleft
    exact hshort hne hleft
  · rintro h34 h
    obtain ⟨done, s₁, hstring, h⟩ := Run.ok_of_bind h
    obtain ⟨-, rfl⟩ := Prod.mk.inj h
    have hlt := getStringToken_shorter hstring (.inl h34)
    have hle := s₁.left_le
    exact hshort (by simp [h34]) (by omega)
  · rintro h62 h
    exact hshort (by simp [h62]) (left_greaterToken h)
  · rintro h60 h
    obtain ⟨isString, s₁, hstring, h⟩ := Run.ok_of_bind h
    refine hshort (by simp [h60]) ?_
    rcases isString with - | -
    · have honward := onward_getStringToken s
      rw [hstring] at honward
      exact (left_lessToken h).trans honward
    · obtain ⟨-, rfl⟩ := Prod.mk.inj h
      have hlt := getStringToken_shorter hstring (.inr ⟨h60, rfl⟩)
      have hle := s₁.left_le
      omega
  · rintro hne - - - - - h
    simp only [Prod.mk.injEq, Except.ok.injEq] at h
    obtain ⟨-, rfl⟩ := h
    exact hshort hne s.left_next_le

/-! ### Files -/

theorem readLexeme_error {e : LexStop} (h : readLexeme s = (.error e, s')) :
    (tokenHere (skipSpace s).2).1 = .error e := by
  obtain ⟨s₀, hs₀⟩ := skipSpace_eq s
  rw [readLexeme, Run.bind_ok hs₀, Run.bind_ok (Run.read_apply _ s₀), Run.bind_apply] at h
  rw [hs₀]
  rcases htoken : tokenHere s₀ with ⟨e' | t, s₁⟩
  · rw [htoken] at h
    simpa using (congrArg Prod.fst h)
  · rw [htoken] at h
    simp [Run.bind_apply] at h

theorem readLexeme_ok {l : Lexeme} (h : readLexeme s = (.ok l, s')) :
    tokenHere (skipSpace s).2 = (.ok l.token, s') := by
  obtain ⟨s₀, hs₀⟩ := skipSpace_eq s
  rw [readLexeme, Run.bind_ok hs₀, Run.bind_ok (Run.read_apply _ s₀)] at h
  obtain ⟨t, s₁, htoken, h⟩ := Run.ok_of_bind h
  rw [Run.bind_ok (Run.read_apply _ s₁), Run.pure_apply] at h
  simp only [Prod.mk.injEq, Except.ok.injEq] at h
  obtain ⟨rfl, rfl⟩ := h
  rw [hs₀]
  exact htoken

theorem left_skipSpace (s : Lexer) : (skipSpace s).2.left ≤ s.left :=
  (left_passWhile (fun c => c == 10 || iswspace c) s).1

theorem left_skipComment (s : Lexer) : (skipComment s).2.left ≤ s.left :=
  (left_passWhile (fun c => c != 0 && c != 10) s).1

theorem lexLoop_ends {n : ℕ} {s : Lexer} (hn : s.left < n) : (lexLoop n s).2 ≠ some .outOfFuel := by
  induction n generalizing s with
  | zero => omega
  | succ n ih =>
    rw [lexLoop]
    rcases hread : readLexeme s with ⟨e | lexeme, s₁⟩
    · have htoken := ends_tokenHere (skipSpace s).2
      rw [Ends, readLexeme_error hread] at htoken
      intro h
      exact htoken (congrArg Except.error (Option.some.inj h))
    · dsimp only
      by_cases hend : lexeme.token = .EOF_TOKEN
      · simp [hend]
      · rw [if_neg hend]
        have hleft := left_tokenHere (readLexeme_ok hread) hend
        have hspace := left_skipSpace s
        refine ih ?_
        by_cases hcomment : lexeme.token = .comment
        · rw [if_pos hcomment]
          have := left_skipComment s₁
          omega
        · rw [if_neg hcomment]
          omega

theorem left_firstLexer (m_tokenValue : List UInt32) (text : List UInt16) :
    (firstLexer m_tokenValue text).left ≤ text.length := by
  have hnext := Lexer.left_next_le ⟨0, text, m_tokenValue, false⟩
  rw [firstLexer]
  split
  · exact (Lexer.left_next_le_left _).trans hnext
  · exact hnext

theorem lexText_ends (m_tokenValue : List UInt32) (text : List UInt16) :
    (lexText m_tokenValue text).2 ≠ some .outOfFuel := by
  have hleft := left_firstLexer m_tokenValue text
  exact lexLoop_ends (by omega)

end GnuPoc.Pkg
