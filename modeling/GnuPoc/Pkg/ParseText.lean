import GnuPoc.Pkg.FinalNewline

/-!
# GnuPoc.Pkg.ParseText — parsing a file with and without a newline at its end

At the end of the file a name, a string and a mark are complete, and a newline behind them is white space.  A
number is not: `GetNumericToken` reads one unit further and throws `ErrReadFailed` where there is none.
-/

namespace GnuPoc.Pkg

open GnuPoc.Lib

/-! ### Parsing -/

/-- `ParseL`, and the tokens from `m_token` on where it ends. -/
def parseRest (env : ParseEnv) (fIsStub : Bool) : ℕ → CSISWriter → Bool → List Token → PRes (CSISWriter × List Token)
  | 0, _, _, _ => .error .outOfFuel
  | n + 1, w, enoughForStub, ts =>
    if current ts = .EOF_TOKEN ∨ (fIsStub ∧ enoughForStub) then .ok (w, ts)
    else do
      let (w, ts) ← ParseEmbeddedBlockL env (bodyFuel ts) w ts
      let enoughForStub := enoughForStub || current ts == .char '*'
      let (w, ts) ← parseLine env w ts
      parseRest env fIsStub n w enoughForStub ts

theorem parseL_eq_parseRest (env : ParseEnv) (fIsStub : Bool) (n : ℕ) (w : CSISWriter) (enoughForStub : Bool)
    (ts : List Token) : ParseL env fIsStub n w enoughForStub ts =
      (parseRest env fIsStub n w enoughForStub ts >>= fun r => .ok r.1) := by
  induction n generalizing w enoughForStub ts with
  | zero => rfl
  | succ n ih =>
    rw [ParseL, parseRest]
    split
    · rfl
    · rcases ParseEmbeddedBlockL env (bodyFuel ts) w ts with e | ⟨w₁, ts₁⟩
      · rfl
      · change (parseLine env w₁ ts₁ >>= _) = ((parseLine env w₁ ts₁ >>= _) >>= _)
        rcases parseLine env w₁ ts₁ with e | ⟨w₂, ts₂⟩
        · rfl
        · exact ih _ _ _

/-- A token no line can use stands for one that cannot be read. -/
def unread : Token := .char (Char.ofNat 0xFFFD)

/-- What a stub makes of the tokens in front of one that cannot be read: it must not come to that one. -/
def parseStub (env : ParseEnv) (tokens : List Token) : Option CSISWriter :=
  match parseRest env true (tokens.length + 2) CSISWriter.empty false (tokens ++ [unread]) with
  | .ok (w, _ :: _ :: _) => some w
  | _ => none

/-- The package of the tokens of a file, and of what the analyzer stops with behind them, unless they are rejected. -/
def parseTokens (env : ParseEnv) (fIsStub : Bool) (tokens : List Token) : Option LexStop → Option CSISWriter
  | none => (ParseL env fIsStub (tokens.length + 2) CSISWriter.empty false tokens).toOption
  | some _ => if fIsStub then parseStub env tokens else none

/-- The package of a file, unless it is rejected.  `ParseL` reads to the end of the file, but for a stub. -/
def parseText (env : ParseEnv) (fIsStub : Bool) (m_tokenValue : List UInt32) (text : List UInt16) : Option CSISWriter :=
  parseTokens env fIsStub ((lexText m_tokenValue text).1.map Lexeme.token) (lexText m_tokenValue text).2

/-! ### Files that end in a number -/

/-- A numeric token runs to the end of the file. -/
def EndsInNumber (m_tokenValue : List UInt32) (text : List UInt16) : Prop :=
  ∃ s ∈ textStarts m_tokenValue text, s.isNumber = true ∧ numberRest s.m_file = []

/-- `GetNumericToken` throws at the end of the file. -/
theorem getNumericToken_atEnd {s : Lexer} (h : numberRest s.m_file = []) :
    ∃ e s', GetNumericToken s = (.error e, s') := by
  have hread := readTemp_eq s
  rw [if_pos h] at hread
  by_cases hlen : MAX_STRING ≤ (numberTail s.m_file).length
  · rw [if_pos hlen] at hread
    exact ⟨_, _, Run.bind_error hread⟩
  · rw [if_neg hlen] at hread
    exact ⟨_, _, Run.bind_error hread⟩

theorem isNumber_ne_zero {s : Lexer} (h : s.isNumber = true) : s.m_pkgChar ≠ 0 := by
  intro h0
  simp [Lexer.isNumber, h0, iswdigit] at h

theorem tokenHere_atEnd {s : Lexer} (hnumber : s.isNumber = true) (h : numberRest s.m_file = []) :
    ∃ e s', tokenHere s = (.error e, s') := by
  obtain ⟨e, s', hnum⟩ := getNumericToken_atEnd h
  refine ⟨e, s', ?_⟩
  rw [tokenHere, Run.bind_ok (Run.read_apply _ s), Run.bind_ok (isNumericToken_eq s),
    if_neg (isNumber_ne_zero hnumber), if_pos hnumber, Run.bind_error hnum]

theorem lexLoop_atEnd {n : ℕ} {s r : Lexer} (hr : r ∈ tokenStarts n s) (hnumber : r.isNumber = true)
    (hrest : numberRest r.m_file = []) : (lexLoop n s).2 ≠ none := by
  induction n generalizing s with
  | zero => simp [lexLoop]
  | succ n ih =>
    rw [tokenStarts, List.mem_cons] at hr
    rw [lexLoop]
    rcases hr with rfl | hr
    · obtain ⟨e, s', htoken⟩ := tokenHere_atEnd hnumber hrest
      rw [readLexeme_of_error htoken]
      simp
    · rcases hread : readLexeme s with ⟨e | lexeme, s₁⟩
      · simp
      · rw [hread] at hr
        dsimp only at hr ⊢
        by_cases hend : lexeme.token = .EOF_TOKEN
        · simp [hend] at hr
        · rw [if_neg hend] at hr ⊢
          exact ih hr

theorem parseText_atEnd (env : ParseEnv) {m_tokenValue : List UInt32} {text : List UInt16}
    (h : EndsInNumber m_tokenValue text) : parseText env false m_tokenValue text = none := by
  obtain ⟨s, hs, hnumber, hrest⟩ := h
  obtain ⟨e, he⟩ := Option.ne_none_iff_exists'.mp (lexLoop_atEnd hs hnumber hrest)
  have hstop : (lexText m_tokenValue text).2 = some e := he
  rw [parseText, hstop]
  rfl

/-! ### A newline at the end -/

/-- The parser stops in these tokens, with or without a package: it does not come to what follows them. -/
def Settled (env : ParseEnv) (fIsStub : Bool) (tokens : List Token) : Prop :=
  ∀ rest rest' stop stop', parseTokens env fIsStub (tokens ++ rest) stop = parseTokens env fIsStub (tokens ++ rest') stop'

/-- The parser comes to a token for which a number is read to the end of the file. -/
def ReadsNumberToEnd (env : ParseEnv) (fIsStub : Bool) (m_tokenValue : List UInt32) (text : List UInt16) : Prop :=
  ∃ (k : ℕ) (s : Lexer), (textStarts m_tokenValue text)[k]? = some s ∧ s.NumberAtEnd ∧
    ¬ Settled env fIsStub (((lexText m_tokenValue text).1.map Lexeme.token).take k)

theorem parseText_newline_eq {env : ParseEnv} {fIsStub : Bool} {m_tokenValue : List UInt32} {text : List UInt16}
    (h : ¬ ReadsNumberToEnd env fIsStub m_tokenValue text) :
    parseText env fIsStub m_tokenValue (text ++ [10]) = parseText env fIsStub m_tokenValue text := by
  classical
  by_cases hatEnd : ∃ (k : ℕ) (s : Lexer), (textStarts m_tokenValue text)[k]? = some s ∧ s.NumberAtEnd
  · -- the first such token: in front of it, nothing has changed, and the parser has stopped there
    obtain ⟨s, hs, hnumber⟩ := Nat.find_spec hatEnd
    have hbefore : ∀ r ∈ (textStarts m_tokenValue text).take (Nat.find hatEnd), ¬ r.NumberAtEnd := by
      intro r hr hnumber'
      obtain ⟨j, hj, hr⟩ := List.mem_iff_getElem.mp hr
      rw [List.length_take] at hj
      refine Nat.find_min hatEnd (lt_of_lt_of_le hj (min_le_left _ _)) ⟨r, ?_, hnumber'⟩
      rw [List.getElem?_eq_some_iff]
      exact ⟨lt_of_lt_of_le hj (min_le_right _ _), by rw [← hr, List.getElem_take]⟩
    obtain ⟨hlt, -⟩ := List.getElem?_eq_some_iff.mp hs
    obtain ⟨tokens, rest, rest', hlen, htokens, htokens'⟩ := lexText_newline_take hlt hbefore
    have hsettled : Settled env fIsStub (((lexText m_tokenValue text).1.map Lexeme.token).take (Nat.find hatEnd)) := by
      by_contra hnot
      exact h ⟨_, s, hs, hnumber, hnot⟩
    rw [htokens, ← hlen, List.take_left] at hsettled
    rw [parseText, parseText, htokens, htokens']
    exact hsettled _ _ _ _
  · obtain ⟨htokens, hstop⟩ := @lexText_newline m_tokenValue text fun s hs hnumber => by
      obtain ⟨k, hk⟩ := List.mem_iff_getElem?.mp hs
      exact hatEnd ⟨k, s, hk, hnumber⟩
    rw [parseText, parseText, htokens, hstop]

/-- A newline at the end makes no difference where every number the parser comes to ends before the file does.  A file
that ends in a number is rejected, so that it makes one where the number completes a package. -/
theorem parseText_newline (env : ParseEnv) (m_tokenValue : List UInt32) (text : List UInt16) :
    (∀ fIsStub, ¬ ReadsNumberToEnd env fIsStub m_tokenValue text →
      parseText env fIsStub m_tokenValue (text ++ [10]) = parseText env fIsStub m_tokenValue text) ∧
    (EndsInNumber m_tokenValue text →
      (parseText env false m_tokenValue (text ++ [10]) = parseText env false m_tokenValue text ↔
        parseText env false m_tokenValue (text ++ [10]) = none)) := by
  constructor
  · exact fun fIsStub h => parseText_newline_eq h
  · intro h
    rw [parseText_atEnd env h]

/-- `:"v"%{"v"}#{"n"},(1),1,2,3` -/
def versionText : List UInt16 :=
  [58, 34, 118, 34, 37, 123, 34, 118, 34, 125, 35, 123, 34, 110, 34, 125, 44, 40, 49, 41, 44, 49, 44, 50, 44, 51]

/-- The version is the end of the file, or of its last line. -/
theorem parseText_version : ¬ ∀ (env : ParseEnv) (m_tokenValue : List UInt32) (text : List UInt16),
    parseText env false m_tokenValue (text ++ [10]) = parseText env false m_tokenValue text := by
  intro h
  have hversion : (parseText ⟨some, fun _ => none⟩ false (List.replicate 255 0) versionText).isSome = false ∧
      (parseText ⟨some, fun _ => none⟩ false (List.replicate 255 0) (versionText ++ [10])).isSome = true := by
    decide +kernel
  rw [h, hversion.1] at hversion
  simp at hversion

end GnuPoc.Pkg
