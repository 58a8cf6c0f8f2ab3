import GnuPoc.Pkg.LexerRuns
import GnuPoc.Pkg.Parse

/-!
# GnuPoc.Pkg.NextToken — from the units of a package file to its tokens (`parsepkg.cpp`)

`m_token` is an `int`: the codes up to `LAST_TOKEN` name the tokens that are not one character, and a
character is its own code.  A control character is therefore taken for the token of its code, and reads what
the last token left in `m_tokenValue`.  The tokens of a file are read up to its end or to the first one the
analyzer throws at; `ParseL` reads no further either.
-/

namespace GnuPoc.Pkg

open GnuPoc.Lib

/-! ### The next token -/

def KTokens : List (String × Token) :=
  [("if", .IF_TOKEN), ("elseif", .ELSEIF_TOKEN), ("else", .ELSE_TOKEN), ("endif", .ENDIF_TOKEN),
    ("exists", .EXISTS_TOKEN), ("package", .DEVPROP_TOKEN), ("appprop", .APPPROP_TOKEN), ("not", .NOT_TOKEN),
    ("and", .AND_TOKEN), ("or", .OR_TOKEN), ("type", .TYPE_TOKEN), ("key", .KEY_TOKEN)]

/-- The keyword `pszString` is, or the name. -/
def keyword (pszString : WStr) : Token := (findOption KTokens pszString).getD (.ALPHA_TOKEN pszString)

/-- The token with the code of a character.  Surrogates stand in for no other character. -/
def charToken (c : UInt32) (m_tokenValue : List UInt32) : Token :=
  match c.toNat with
  | 0 => .EOF_TOKEN
  | 1 => .NUMERIC_TOKEN (dwNumber m_tokenValue)
  | 2 => .ALPHA_TOKEN (cstring m_tokenValue)
  | 3 => .QUOTED_STRING_TOKEN (cstring m_tokenValue)
  | 4 => .AND_TOKEN
  | 5 => .OR_TOKEN
  | 6 => .NOT_TOKEN
  | 7 => .EXISTS_TOKEN
  | 8 => .DEVPROP_TOKEN
  | 9 => .APPPROP_TOKEN
  | 10 => .GE_TOKEN
  | 11 => .LE_TOKEN
  | 12 => .NE_TOKEN
  | 13 => .IF_TOKEN
  | 14 => .ELSEIF_TOKEN
  | 15 => .ELSE_TOKEN
  | 16 => .ENDIF_TOKEN
  | 17 => .TYPE_TOKEN
  | 18 => .KEY_TOKEN
  | 59 => .comment
  | n => .char (if n.isValidChar then Char.ofNat n else Char.ofNat 0xFFFD)

def skipSpace : Lex Unit := do
  let _ ← GetWhile fun c => c == 10 || iswspace c
  pure ()

/-- The strings, which stand in `m_tokenValue`. -/
def stringValue (token : WStr → Token) : Lex Token := Run.read fun s => token (cstring s.m_tokenValue)

/-- `>` and `>=`. -/
def greaterToken : Lex Token := do
  GetNextChar
  onChar 61 (do
    GetNextChar
    pure .GE_TOKEN) (pure (.char '>'))

/-- `<`, `<=` and `<>`. -/
def lessToken : Lex Token := do
  GetNextChar
  onChar 61 (do
    GetNextChar
    pure .LE_TOKEN) (onChar 62 (do
      GetNextChar
      pure .NE_TOKEN) (pure (.char '<')))

/-- `GetNextToken` behind the white space. -/
def tokenHere : Lex Token := do
  let c ← Run.read Lexer.m_pkgChar
  let isNumber ← IsNumericToken
  if c = 0 then pure .EOF_TOKEN
  else if isNumber then do
    GetNumericToken
    Run.read fun s => .NUMERIC_TOKEN (dwNumber s.m_tokenValue)
  else if iswalpha c then do
    GetAlphaNumericToken
    stringValue keyword
  else if c = 34 then do
    let _ ← GetStringToken
    stringValue .QUOTED_STRING_TOKEN
  else if c = 62 then greaterToken
  else if c = 60 then do
    let isString ← GetStringToken
    if isString then stringValue .QUOTED_STRING_TOKEN else lessToken
  else do
    let token ← Run.read fun s => charToken c s.m_tokenValue
    GetNextChar
    pure token

def GetNextToken : Lex Token := do
  skipSpace
  tokenHere

/-! ### All tokens -/

/-- A token, and the units from its first one on by which the file pointer has moved.  Behind a number stands
at least one more unit, so that these are its digits and its sign. -/
structure Lexeme where
  token : Token
  passed : List UInt16
  deriving DecidableEq, Repr

/-- `GetNextToken`, and the units it has passed. -/
def readLexeme : Lex Lexeme := do
  skipSpace
  let start ← Run.read fun s => s.m_pkgChar.toUInt16 :: s.m_file
  let token ← tokenHere
  let file ← Run.read Lexer.m_file
  pure ⟨token, start.take (start.length - 1 - file.length)⟩

/-- The loop of `ParseCommentL`. -/
def skipComment : Lex Unit := do
  let _ ← GetWhile fun c => c != 0 && c != 10
  pure ()

/-- The tokens from here on, and what stopped the analyzer before the end of the file, on fuel. -/
def lexLoop : ℕ → Lexer → List Lexeme × Option LexStop
  | 0, _ => ([], some .outOfFuel)
  | n + 1, s =>
    match readLexeme s with
    | (.error e, _) => ([], some e)
    | (.ok lexeme, s) =>
      if lexeme.token = .EOF_TOKEN then ([], none)
      else
        let rest := lexLoop n (if lexeme.token = .comment then (skipComment s).2 else s)
        (lexeme :: rest.1, rest.2)

/-- The first character, behind a byte order mark. -/
def firstLexer (m_tokenValue : List UInt32) (text : List UInt16) : Lexer :=
  let s := Lexer.next ⟨0, text, m_tokenValue, false⟩
  if s.m_pkgChar = 0xFEFF then s.next else s

/-- The tokens of a package file; `m_tokenValue` is what stood in memory. -/
def lexText (m_tokenValue : List UInt32) (text : List UInt16) : List Lexeme × Option LexStop :=
  lexLoop (text.length + 2) (firstLexer m_tokenValue text)

/-! ### The cases of a token -/

/-- `IsNumericToken` at a state, which it leaves as it is. -/
def Lexer.isNumber (s : Lexer) : Bool :=
  iswdigit s.m_pkgChar || ((s.m_pkgChar == 43 || s.m_pkgChar == 45) && iswdigit (firstChar s.m_file))

theorem isNumericToken_eq (s : Lexer) : IsNumericToken s = (.ok s.isNumber, s) := by
  rw [IsNumericToken, Lexer.isNumber]
  rcases hfile : s.m_file with - | ⟨tmp, rest⟩
  · rfl
  · rfl

theorem tokenHere_cases {s : Lexer} {motive : Except LexStop Token × Lexer → Prop}
    (eof : s.m_pkgChar = 0 → motive (.ok .EOF_TOKEN, s))
    (number : s.m_pkgChar ≠ 0 → s.isNumber = true → motive ((GetNumericToken >>= fun _ =>
      Run.read fun s => Token.NUMERIC_TOKEN (dwNumber s.m_tokenValue)) s))
    (alpha : s.isNumber = false → iswalpha s.m_pkgChar = true →
      motive ((GetAlphaNumericToken >>= fun _ => stringValue keyword) s))
    (quoted : s.m_pkgChar = 34 → motive ((GetStringToken >>= fun _ => stringValue .QUOTED_STRING_TOKEN) s))
    (greater : s.m_pkgChar = 62 → motive (greaterToken s))
    (less : s.m_pkgChar = 60 → motive ((GetStringToken >>= fun isString =>
      if isString then stringValue .QUOTED_STRING_TOKEN else lessToken) s))
    (char : s.m_pkgChar ≠ 0 → s.isNumber = false → iswalpha s.m_pkgChar = false → s.m_pkgChar ≠ 34 →
      s.m_pkgChar ≠ 62 → s.m_pkgChar ≠ 60 → motive (.ok (charToken s.m_pkgChar s.m_tokenValue), s.next)) :
    motive (tokenHere s) := by
  rw [tokenHere, Run.bind_ok (Run.read_apply _ s), Run.bind_ok (isNumericToken_eq s)]
  split
  · next h => exact eof h
  · next hne =>
    split
    · next h => exact number hne h
    · next hnumber =>
      rw [Bool.not_eq_true] at hnumber
      split
      · next h => exact alpha hnumber h
      · next halpha =>
        rw [Bool.not_eq_true] at halpha
        split
        · next h => exact quoted h
        · next hquote =>
          split
          · next h => exact greater h
          · next hgreater =>
            split
            · next h => exact less h
            · next hless =>
              rw [Run.bind_ok (Run.read_apply _ s), Run.bind_ok (getNextChar_eq s)]
              exact char hne hnumber halpha hquote hgreater hless

/-! ### Numbers -/

variable {s s' : Lexer}

theorem readTemp_eq_ok {temp : WStr} (h : readTemp s = (.ok temp, s')) :
    temp = s.m_pkgChar :: (numberTail s.m_file).map UInt16.toUInt32 ∧ s' = s.passed ∧ numberRest s.m_file ≠ [] := by
  rw [readTemp_eq] at h
  split at h
  · simp at h
  · split at h
    · simp at h
    · next hrest =>
      split at h
      · simp at h
      · obtain ⟨htemp, rfl⟩ := Prod.mk.inj h
        exact ⟨(Except.ok.inj htemp).symm, rfl, hrest⟩

theorem getNumericToken_eq_ok (h : GetNumericToken s = (.ok (), s')) :
    dwNumber s'.m_tokenValue = (convertTemp (s.m_pkgChar :: (numberTail s.m_file).map UInt16.toUInt32)).value ∧
      s'.m_file.length + ((numberTail s.m_file).length + 1) = s.m_file.length := by
  obtain ⟨temp, s₁, hread, hstore⟩ := Run.ok_of_bind h
  obtain ⟨rfl, rfl, hrest⟩ := readTemp_eq_ok hread
  rw [storeTemp_eq] at hstore
  split at hstore
  · simp at hstore
  · split at hstore
    · simp at hstore
    · obtain ⟨-, rfl⟩ := Prod.mk.inj hstore
      have hfile : (numberTail s.m_file ++ numberRest s.m_file).length = s.m_file.length :=
        congrArg List.length List.takeWhile_append_dropWhile
      have hpos := List.length_pos_iff.mpr hrest
      rw [List.length_append] at hfile
      refine ⟨by simp [Lexer.stored], ?_⟩
      simp only [Lexer.next_m_file, List.length_tail, Lexer.stored, Lexer.passed]
      omega

/-- Tokens that are numbers. -/
def Token.isNumeric : Token → Bool
  | NUMERIC_TOKEN _ => true
  | _ => false

theorem keyword_not_numeric (pszString : WStr) : (keyword pszString).isNumeric = false := by
  have htable : ∀ option ∈ KTokens, option.2.isNumeric = false := by simp [KTokens, Token.isNumeric]
  rw [keyword, findOption]
  rcases hfind : KTokens.find? fun o => wcsicmp pszString (wstr o.1) with - | option
  · rw [hfind]
    rfl
  · rw [hfind]
    exact htable option (List.mem_of_find?_eq_some hfind)

theorem greaterToken_not_numeric {t : Token} (h : greaterToken s = (.ok t, s')) : t.isNumeric = false := by
  obtain ⟨-, s₁, -, h⟩ := Run.ok_of_bind h
  by_cases h61 : s₁.m_pkgChar = 61
  · rw [onChar_pos h61, Run.bind_ok (getNextChar_eq s₁)] at h
    obtain ⟨rfl, -⟩ := by simpa using h
    rfl
  · rw [onChar_neg h61] at h
    obtain ⟨rfl, -⟩ := by simpa using h
    rfl

theorem lessToken_not_numeric {t : Token} (h : lessToken s = (.ok t, s')) : t.isNumeric = false := by
  obtain ⟨-, s₁, -, h⟩ := Run.ok_of_bind h
  by_cases h61 : s₁.m_pkgChar = 61
  · rw [onChar_pos h61, Run.bind_ok (getNextChar_eq s₁)] at h
    obtain ⟨rfl, -⟩ := by simpa using h
    rfl
  · rw [onChar_neg h61] at h
    by_cases h62 : s₁.m_pkgChar = 62
    · rw [onChar_pos h62, Run.bind_ok (getNextChar_eq s₁)] at h
      obtain ⟨rfl, -⟩ := by simpa using h
      rfl
    · rw [onChar_neg h62] at h
      obtain ⟨rfl, -⟩ := by simpa using h
      rfl

theorem charToken_numeric {c : UInt32} {memory : List UInt32} (h : (charToken c memory).isNumeric = true) : c = 1 := by
  rw [charToken] at h
  split at h <;> simp_all [Token.isNumeric, ← UInt32.toNat_inj]

/-- A number is read by `GetNumericToken`, or is the character of its code. -/
theorem tokenHere_numeric {t : Token} (h : tokenHere s = (.ok t, s')) (ht : t.isNumeric = true) :
    (s.isNumber = true ∧ GetNumericToken s = (.ok (), s') ∧ t = .NUMERIC_TOKEN (dwNumber s'.m_tokenValue)) ∨
      (s.m_pkgChar = 1 ∧ s' = s.next) := by
  revert h
  refine tokenHere_cases (motive := fun r => r = (.ok t, s') → _) ?_ ?_ ?_ ?_ ?_ ?_ ?_
  · rintro - h
    simp only [Prod.mk.injEq, Except.ok.injEq] at h
    simp [← h.1, Token.isNumeric] at ht
  · rintro - hnumber h
    obtain ⟨⟨⟩, s₁, hnum, h⟩ := Run.ok_of_bind h
    simp only [Run.read_apply, Prod.mk.injEq, Except.ok.injEq] at h
    obtain ⟨rfl, rfl⟩ := h
    exact .inl ⟨hnumber, hnum, rfl⟩
  · rintro - - h
    obtain ⟨-, s₁, -, h⟩ := Run.ok_of_bind h
    simp only [stringValue, Run.read_apply, Prod.mk.injEq, Except.ok.injEq] at h
    obtain ⟨rfl, -⟩ := h
    simp [keyword_not_numeric] at ht
  · rintro - h
    obtain ⟨-, s₁, -, h⟩ := Run.ok_of_bind h
    simp only [stringValue, Run.read_apply, Prod.mk.injEq, Except.ok.injEq] at h
    obtain ⟨rfl, -⟩ := h
    simp [Token.isNumeric] at ht
  · rintro - h
    simp [greaterToken_not_numeric h] at ht
  · rintro - h
    obtain ⟨isString, s₁, -, h⟩ := Run.ok_of_bind h
    split at h
    · simp only [stringValue, Run.read_apply, Prod.mk.injEq, Except.ok.injEq] at h
      obtain ⟨rfl, -⟩ := h
      simp [Token.isNumeric] at ht
    · simp [lessToken_not_numeric h] at ht
  · rintro - - - - - - h
    simp only [Prod.mk.injEq, Except.ok.injEq] at h
    obtain ⟨rfl, rfl⟩ := h
    exact .inr ⟨charToken_numeric ht, rfl⟩

theorem isNumber_toUInt16 {s : Lexer} (h : s.isNumber = true) : s.m_pkgChar.toUInt16.toUInt32 = s.m_pkgChar := by
  have hlt : s.m_pkgChar.toNat < 65536 := by
    simp only [Lexer.isNumber, Bool.or_eq_true, Bool.and_eq_true, beq_iff_eq] at h
    rcases h with h | ⟨h | h, -⟩
    · have := iswdigit_iff.mp h
      omega
    · rw [h]
      decide
    · rw [h]
      decide
  rw [← UInt32.toNat_inj]
  simp [Nat.mod_eq_of_lt hlt]

theorem skipSpace_eq (s : Lexer) : ∃ s', skipSpace s = (.ok (), s') := ⟨_, rfl⟩

/-- A number has the value of the digits that were passed. -/
theorem readLexeme_literal {l : Lexeme} {n : UInt64} (h : readLexeme s = (.ok l, s'))
    (ht : l.token = .NUMERIC_TOKEN n) {z : ℤ} (hz : Literal l.passed z) : n = (convertedInt z).value := by
  obtain ⟨s₀, hs₀⟩ := skipSpace_eq s
  rw [readLexeme, Run.bind_ok hs₀, Run.bind_ok (Run.read_apply _ s₀)] at h
  obtain ⟨t, s₁, htoken, h⟩ := Run.ok_of_bind h
  rw [Run.bind_ok (Run.read_apply _ s₁), Run.pure_apply] at h
  simp only [Prod.mk.injEq, Except.ok.injEq] at h
  obtain ⟨rfl, rfl⟩ := h
  simp only at ht hz
  subst ht
  rcases tokenHere_numeric htoken rfl with ⟨hnumber, hnum, hn⟩ | ⟨hone, rfl⟩
  · obtain ⟨hvalue, hfile⟩ := getNumericToken_eq_ok hnum
    have hchar := isNumber_toUInt16 hnumber
    have hpassed : (s₀.m_pkgChar.toUInt16 :: s₀.m_file).take
        ((s₀.m_pkgChar.toUInt16 :: s₀.m_file).length - 1 - s₁.m_file.length) =
          s₀.m_pkgChar.toUInt16 :: numberTail s₀.m_file := by
      have hlen : (s₀.m_pkgChar.toUInt16 :: s₀.m_file).length - 1 - s₁.m_file.length =
          (numberTail s₀.m_file).length + 1 := by
        rw [List.length_cons]
        omega
      rw [hlen, List.take_succ_cons]
      congr 1
      exact (List.prefix_iff_eq_take.mp (List.takeWhile_prefix _)).symm
    rw [hpassed] at hz
    have hconvert := convertTemp_literal hz
    rw [List.map_cons, hchar] at hconvert
    rw [Token.NUMERIC_TOKEN.inj hn, hvalue, hconvert]
  · rw [hone] at hz
    generalize ((1 : UInt32).toUInt16 :: s₀.m_file).length - 1 - s₀.next.m_file.length = k at hz
    rcases k with - | k
    · exact absurd rfl hz.tail_numberChar.1
    · have hhead : iswdigit (1 : UInt16).toUInt32 = true ∨ (1 : UInt16) = 43 ∨ (1 : UInt16) = 45 := hz.head
      exact absurd hhead (by decide)

/-- The tokens of a file are those `GetNextToken` gives, up to the end of the file. -/
theorem mem_lexLoop {n : ℕ} {s : Lexer} {l : Lexeme} (h : l ∈ (lexLoop n s).1) :
    l.token ≠ .EOF_TOKEN ∧ ∃ s s', readLexeme s = (.ok l, s') := by
  induction n generalizing s with
  | zero => simp [lexLoop] at h
  | succ n ih =>
    rcases hread : readLexeme s with ⟨e | lexeme, s'⟩
    · simp [lexLoop, hread] at h
    · by_cases hend : lexeme.token = .EOF_TOKEN
      · simp [lexLoop, hread, hend] at h
      · simp only [lexLoop, hread, hend, if_false, List.mem_cons] at h
        rcases h with rfl | h
        · exact ⟨hend, s, s', hread⟩
        · exact ih h

end GnuPoc.Pkg
