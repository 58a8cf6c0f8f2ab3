import GnuPoc.Pkg.BodyShape
import GnuPoc.Pkg.NextToken
import GnuPoc.Sis.Nesting

/-!
# GnuPoc.Sis.HeaderNumbers — the UID and the version of the header, from the file to the `SISInfo`

A number of the file is converted to 64 bits, `ParseHeaderL` keeps 16 or 32 of them, and `CreateSISInfo`
writes what was kept.  The numbers of an accepted header arrive exactly when they are spelled as one writes
numbers and fit their fields: nothing checks either.
-/

namespace GnuPoc.Sis

open GnuPoc.Lib GnuPoc.Pkg

/-! ### The numbers of a header -/

structure HeaderNumbers where
  uid : ℤ
  major : ℤ
  minor : ℤ
  build : ℤ
  deriving DecidableEq, Repr

/-- What the numbers among some tokens are spelled with. -/
def spellings (tokens : List Lexeme) : List (List UInt16) :=
  (tokens.filter fun l => l.token.isNumeric).map Lexeme.passed

namespace HeaderNumbers

/-- The spellings are literals of these numbers. -/
def SpelledBy (n : HeaderNumbers) (literals : List (List UInt16)) : Prop :=
  ∃ uid major minor build, literals = [uid, major, minor, build] ∧
    Literal uid n.uid ∧ Literal major n.major ∧ Literal minor n.minor ∧ Literal build n.build

/-- A UID and a build number have 32 bits, a major and a minor version 16. -/
structure Fits (n : HeaderNumbers) : Prop where
  uid : 0 ≤ n.uid ∧ n.uid < 4294967296
  major : 0 ≤ n.major ∧ n.major < 65536
  minor : 0 ≤ n.minor ∧ n.minor < 65536
  build : 0 ≤ n.build ∧ n.build < 4294967296

/-- The `SISUid` and the `SISVersion` of a `SISInfo` are these numbers. -/
def WrittenIn (n : HeaderNumbers) (info : SISField) : Prop :=
  ∃ c iElements uid major minor build, info = .compound c iElements ∧ .leaf (.SISUid uid) ∈ iElements ∧
    .leaf (.SISVersion major minor build) ∈ iElements ∧
    (uid.toNat : ℤ) = n.uid ∧ (major.toNat : ℤ) = n.major ∧ (minor.toNat : ℤ) = n.minor ∧
    (build.toNat : ℤ) = n.build

end HeaderNumbers

/-! ### Narrowing -/

section
variable {z : ℤ}

theorem toNat_convertedInt (h : 0 ≤ z ∧ z < 4294967296) : ((convertedInt z).value.toNat : ℤ) = z := by
  obtain ⟨n, rfl⟩ := Int.eq_ofNat_of_zero_le h.1
  have hn : n < 4294967296 := by omega
  rw [convertedInt, if_neg (by simp; omega), ofInt_natCast, UInt64.toNat_ofNat', Nat.mod_eq_of_lt (by omega)]

theorem toUInt32_convertedInt (h : 0 ≤ z ∧ z < 4294967296) : ((convertedInt z).value.toUInt32.toNat : ℤ) = z := by
  have hz := toNat_convertedInt h
  rw [UInt64.toNat_toUInt32, Nat.mod_eq_of_lt (by omega), hz]

theorem toUInt16_convertedInt (h : 0 ≤ z ∧ z < 65536) : ((convertedInt z).value.toUInt16.toNat : ℤ) = z := by
  have hz := toNat_convertedInt ⟨h.1, by omega⟩
  rw [UInt64.toNat_toUInt16, Nat.mod_eq_of_lt (by omega), hz]

end

/-! ### The tokens of a header -/

theorem langStrings_not_numeric {n : ℕ} {base base' : List WStr} {ts rest : List Token}
    (h : langStrings n base ts = .ok (base', rest)) : ∃ used, ts = used ++ rest ∧ ∀ t ∈ used, t.isNumeric = false := by
  induction n generalizing base ts with
  | zero =>
    cases h
    exact ⟨[], rfl, by simp⟩
  | succ n ih =>
    obtain ⟨⟨s, ts₁⟩, hs, h⟩ := bind_eq_ok.mp h
    rw [expectString_eq_ok hs]
    dsimp only at h
    split at h
    · cases h
      exact ⟨[.QUOTED_STRING_TOKEN s], rfl, by simp [Token.isNumeric]⟩
    · obtain ⟨ts₂, hcomma, h⟩ := bind_eq_ok.mp h
      obtain ⟨used, rfl, hused⟩ := ih h
      rw [expectToken_eq_ok (by simp) hcomma]
      exact ⟨.QUOTED_STRING_TOKEN s :: .char ',' :: used, rfl, by simpa [Token.isNumeric] using hused⟩

theorem namesBlock_not_numeric {w : CSISWriter} {base base' : List WStr} {ts rest : List Token}
    (h : namesBlock w base ts = .ok (base', rest)) : ∃ used, ts = used ++ rest ∧ ∀ t ∈ used, t.isNumeric = false := by
  obtain ⟨ts₁, hopen, h⟩ := bind_eq_ok.mp h
  obtain ⟨⟨base₁, ts₂⟩, hstrings, h⟩ := bind_eq_ok.mp h
  obtain ⟨ts₃, hclose, h⟩ := bind_eq_ok.mp h
  cases h
  obtain ⟨used, hts₁, hused⟩ := langStrings_not_numeric hstrings
  have hts₂ : ts₂ = _ := expectToken_eq_ok (by simp) hclose
  refine ⟨.char '{' :: (used ++ [.char '}']), ?_, ?_⟩
  · rw [expectToken_eq_ok (by simp) hopen, hts₁, hts₂]
    simp
  · simpa [Token.isNumeric, or_imp, forall_and] using hused

theorem parseHeaderL_numbers {header : List Lexeme} {w w' : CSISWriter} {rest : List Token}
    (h : ParseHeaderL w (header.map Lexeme.token) = .ok (w', rest)) :
    ∃ uid major minor build : Lexeme, uid ∈ header ∧ major ∈ header ∧ minor ∈ header ∧ build ∈ header ∧
      (spellings header).take 4 = [uid.passed, major.passed, minor.passed, build.passed] ∧
      ∃ u a b c names, uid.token = .NUMERIC_TOKEN u ∧ major.token = .NUMERIC_TOKEN a ∧
        minor.token = .NUMERIC_TOKEN b ∧ build.token = .NUMERIC_TOKEN c ∧
        w'.header = ⟨u.toUInt32, a.toUInt16, b.toUInt16, c.toUInt32, names⟩ := by
  obtain ⟨-, names, front, options, u, a, b, c, hnames, rfl, -, hheader⟩ := parseHeaderL_eq_ok h
  obtain ⟨used, hused, hnot⟩ := namesBlock_not_numeric hnames
  obtain ⟨l₁, l₂, rfl, rfl, h₂⟩ := List.map_eq_append_iff.mp hused
  simp only [List.cons_append, List.nil_append, List.map_eq_cons_iff] at h₂
  obtain ⟨x₁, _, rfl, h₁, x₂, _, rfl, h₂, uid, _, rfl, huid, x₃, _, rfl, h₃, x₄, _, rfl, h₄, major, _, rfl, hmajor,
    x₅, _, rfl, h₅, minor, _, rfl, hminor, x₆, _, rfl, h₆, build, l, rfl, hbuild, -⟩ := h₂
  have hfront : spellings l₁ = [] := by
    rw [spellings, List.map_eq_nil_iff, List.filter_eq_nil_iff]
    intro x hx
    simpa using hnot x.token (List.mem_map_of_mem hx)
  refine ⟨uid, major, minor, build, by simp, by simp, by simp, by simp, ?_, u, a, b, c, names, huid, hmajor, hminor,
    hbuild, hheader⟩
  have happend (l₁ l₂ : List Lexeme) : spellings (l₁ ++ l₂) = spellings l₁ ++ spellings l₂ := by simp [spellings]
  rw [happend, hfront]
  simp [spellings, h₁, h₂, huid, h₃, h₄, hmajor, h₅, hminor, h₆, hbuild, Token.isNumeric]

/-! ### From the file to the `SISInfo` -/

theorem langStrings_ne_nil {n : ℕ} {base base' : List WStr} {ts rest : List Token}
    (h : langStrings n base ts = .ok (base', rest)) (hne : n ≠ 0 ∨ base ≠ []) : base' ≠ [] := by
  induction n generalizing base ts with
  | zero =>
    cases h
    simpa using hne
  | succ n ih =>
    obtain ⟨⟨s, ts₁⟩, -, h⟩ := bind_eq_ok.mp h
    dsimp only at h
    split at h
    · cases h
      simp
    · obtain ⟨ts₂, -, h⟩ := bind_eq_ok.mp h
      exact ih h (.inr (by simp))

theorem assumeEnglish_numLangs (w : CSISWriter) : (assumeEnglish w).m_wNumLangs ≠ 0 := by
  rw [assumeEnglish]
  split
  · next hzero => simp [CSISWriter.AddLanguageNode, hzero]
  · next hne => exact hne

theorem header_kept {w w' final : CSISWriter} {ts rest : List Token} {penv : ParseEnv} {stub enoughForStub : Bool}
    {n : ℕ} (h : ParseHeaderL w ts = .ok (w', rest)) (hrest : ParseL penv stub n w' enoughForStub rest = .ok final) :
    final.header = w'.header := by
  apply parseL_header ?_ hrest
  obtain ⟨-, names, front, options, u, a, b, c, hnames, -, -, hheader⟩ := parseHeaderL_eq_ok h
  have hbase : w'.m_pLangStringBase = names := congrArg HeaderInfo.m_pLangStringBase hheader
  have hne : names ≠ [] := by
    obtain ⟨ts₁, -, hnames⟩ := bind_eq_ok.mp hnames
    obtain ⟨⟨names', ts₂⟩, hstrings, hnames⟩ := bind_eq_ok.mp hnames
    obtain ⟨ts₃, -, hnames⟩ := bind_eq_ok.mp hnames
    cases hnames
    refine langStrings_ne_nil hstrings (.inl fun hzero => assumeEnglish_numLangs w ?_)
    rwa [← UInt16.toNat_inj]
  rw [CSISWriter.AreLangStringInit, hbase]
  simpa using hne

theorem createSISInfo_writes {env : Env} {w : CSISWriter} {stub : Bool} {info : SISField}
    (h : CreateSISInfo env w stub = .ok info) : ∃ c iElements, info = .compound c iElements ∧
      .leaf (.SISUid w.m_dwUID) ∈ iElements ∧
      .leaf (.SISVersion w.m_wMajor.toUInt32 w.m_wMinor.toUInt32 w.m_dwBuild) ∈ iElements := by
  rw [CreateSISInfo.eq_def] at h
  split at h
  · cases h
  · split at h
    · cases h
    · cases h
      exact ⟨_, _, rfl, by simp, by simp⟩

/-- The UID and the version of an accepted header reach the `SISInfo`, spelled by literals that fit their fields,
exactly when its first four numbers are such literals. -/
theorem header_numbers_kept_iff {m_tokenValue : List UInt32} {text : List UInt16} {before header : List Lexeme}
    {stop : Option LexStop} {penv : ParseEnv} {env : Env} {w w' final : CSISWriter} {rest : List Token}
    {n : ℕ} {stub enoughForStub : Bool} {info : SISField}
    (hlex : lexText m_tokenValue text = (before ++ header, stop))
    (hheader : ParseHeaderL w (header.map Lexeme.token) = .ok (w', rest))
    (hrest : ParseL penv stub n w' enoughForStub rest = .ok final)
    (hinfo : CreateSISInfo env final stub = .ok info) :
    (∃ numbers : HeaderNumbers, numbers.SpelledBy ((spellings header).take 4) ∧ numbers.Fits ∧ numbers.WrittenIn info) ↔
      ∃ numbers : HeaderNumbers, numbers.SpelledBy ((spellings header).take 4) ∧ numbers.Fits := by
  constructor
  · rintro ⟨numbers, hspelled, hfits, -⟩
    exact ⟨numbers, hspelled, hfits⟩
  · rintro ⟨numbers, hspelled, hfits⟩
    obtain ⟨uid, major, minor, build, huid, hmajor, hminor, hbuild, hspellings, u, a, b, c, names, hu, ha, hb, hc, hw⟩ :=
      parseHeaderL_numbers hheader
    obtain ⟨_, _, _, _, hliterals, hluid, hlmajor, hlminor, hlbuild⟩ := id hspelled
    rw [hspellings] at hliterals
    simp only [List.cons.injEq, and_true] at hliterals
    obtain ⟨rfl, rfl, rfl, rfl⟩ := hliterals
    have hvalue {l : Lexeme} (hl : l ∈ header) {n : UInt64} (ht : l.token = .NUMERIC_TOKEN n) {z : ℤ}
        (hz : Literal l.passed z) : n = (convertedInt z).value := by
      have hmem : l ∈ (lexText m_tokenValue text).1 := by
        rw [hlex]
        exact List.mem_append_right _ hl
      obtain ⟨-, s, s', hread⟩ := mem_lexLoop hmem
      exact readLexeme_literal hread ht hz
    obtain ⟨c', iElements, rfl, hUid, hVersion⟩ := createSISInfo_writes hinfo
    have hfinal := (header_kept hheader hrest).trans hw
    simp only [CSISWriter.header, HeaderInfo.mk.injEq] at hfinal
    obtain ⟨hfuid, hfmajor, hfminor, hfbuild, -⟩ := hfinal
    rw [hfuid] at hUid
    rw [hfmajor, hfminor, hfbuild] at hVersion
    refine ⟨numbers, hspelled, hfits, c', iElements, _, _, _, _, rfl, hUid, hVersion, ?_, ?_, ?_, ?_⟩
    · rw [hvalue huid hu hluid, toUInt32_convertedInt hfits.uid]
    · rw [UInt16.toNat_toUInt32, hvalue hmajor ha hlmajor, toUInt16_convertedInt hfits.major]
    · rw [UInt16.toNat_toUInt32, hvalue hminor hb hlminor, toUInt16_convertedInt hfits.minor]
    · rw [hvalue hbuild hc hlbuild, toUInt32_convertedInt hfits.build]

/-! ### Two files -/

/-- `#{"x"},(` uid `),1,2,3:"v"%{"v"}` -/
def numberedText (uid : List UInt16) : List UInt16 :=
  [35, 123, 34, 120, 34, 125, 44, 40] ++ uid ++
    [41, 44, 49, 44, 50, 44, 51, 58, 34, 118, 34, 37, 123, 34, 118, 34, 125]

def numberedTokens (uid : List UInt16) : List Lexeme := (lexText (List.replicate 255 0) (numberedText uid)).1

/-- What the header and the whole file leave in the writer. -/
def numberedHeader (uid : UInt32) : CSISWriter := { CSISWriter.empty with
  m_dwUID := uid
  m_wMajor := 1
  m_wMinor := 2
  m_dwBuild := 3
  m_wFlags := EInstFlagIsUnicode
  m_wNumLangs := 1
  m_pLangStringBase := [[120]]
  m_pLangBase := [1] }

def numberedWriter (uid : UInt32) : CSISWriter := { numberedHeader uid with
  m_pVendorName := [[118]]
  m_pLocalizedVendorBase := [[118]] }

/-- The UID `0x10000001`. -/
theorem header_numbers_kept_hex : ∃ numbers : HeaderNumbers,
    numbers.SpelledBy ((spellings (numberedTokens [48, 120, 49, 48, 48, 48, 48, 48, 48, 49]).tail).take 4) ∧
      numbers.Fits ∧ ∃ info, CreateSISInfo plainEnv (numberedWriter 0x10000001) false = .ok info ∧
        numbers.WrittenIn info := by
  have hlex : lexText (List.replicate 255 0) (numberedText [48, 120, 49, 48, 48, 48, 48, 48, 48, 49]) =
      ([⟨.char '#', [35]⟩] ++ (numberedTokens [48, 120, 49, 48, 48, 48, 48, 48, 48, 49]).tail, none) := by
    decide +kernel
  have hheader : ParseHeaderL CSISWriter.empty
      ((numberedTokens [48, 120, 49, 48, 48, 48, 48, 48, 48, 49]).tail.map Lexeme.token) =
        .ok (numberedHeader 0x10000001, [.char ':', .QUOTED_STRING_TOKEN [118], .char '%', .char '{',
          .QUOTED_STRING_TOKEN [118], .char '}']) := by
    decide +kernel
  have hrest : ParseL ⟨some, fun _ => none⟩ false 3 (numberedHeader 0x10000001) false [.char ':',
      .QUOTED_STRING_TOKEN [118], .char '%', .char '{', .QUOTED_STRING_TOKEN [118], .char '}'] =
        .ok (numberedWriter 0x10000001) := by
    decide +kernel
  have hspelled : (spellings (numberedTokens [48, 120, 49, 48, 48, 48, 48, 48, 48, 49]).tail).take 4 =
      [[48, 120, 49, 48, 48, 48, 48, 48, 48, 49], [49], [50], [51]] := by
    decide +kernel
  obtain ⟨info, hinfo⟩ : ∃ info, CreateSISInfo plainEnv (numberedWriter 0x10000001) false = .ok info := ⟨_, rfl⟩
  obtain ⟨numbers, hnumbers, hfits, hwritten⟩ := (header_numbers_kept_iff hlex hheader hrest hinfo).mpr
    ⟨⟨0x10000001, 1, 2, 3⟩, ⟨_, _, _, _, hspelled,
      .unsigned (@Numeral.hexadecimal [49, 48, 48, 48, 48, 48, 48, 49] (by simp) (by simp [iswxdigit, iswdigit])),
      .unsigned (@Numeral.decimal [49] (by simp) (by simp [iswdigit])),
      .unsigned (@Numeral.decimal [50] (by simp) (by simp [iswdigit])),
      .unsigned (@Numeral.decimal [51] (by simp) (by simp [iswdigit]))⟩,
      ⟨by decide, by decide, by decide, by decide⟩⟩
  exact ⟨numbers, hnumbers, hfits, info, hinfo, hwritten⟩

/-- The UID 4294967297 of a header is stored as 1. -/
theorem uid_cut : ¬ ∀ (text : List UInt16) (before header : List Lexeme) (w w' final : CSISWriter) (rest : List Token)
    (n : ℕ) (info : SISField), lexText (List.replicate 255 0) text = (before ++ header, none) →
    ParseHeaderL w (header.map Lexeme.token) = .ok (w', rest) →
    ParseL ⟨some, fun _ => none⟩ false n w' false rest = .ok final →
    CreateSISInfo plainEnv final false = .ok info →
    ∃ numbers : HeaderNumbers, numbers.SpelledBy ((spellings header).take 4) ∧ numbers.Fits ∧
      numbers.WrittenIn info := by
  intro h
  have hlex : lexText (List.replicate 255 0) (numberedText [52, 50, 57, 52, 57, 54, 55, 50, 57, 55]) =
      ([⟨.char '#', [35]⟩] ++ (numberedTokens [52, 50, 57, 52, 57, 54, 55, 50, 57, 55]).tail, none) := by
    decide +kernel
  have hheader : ParseHeaderL CSISWriter.empty
      ((numberedTokens [52, 50, 57, 52, 57, 54, 55, 50, 57, 55]).tail.map Lexeme.token) =
        .ok (numberedHeader 1, [.char ':', .QUOTED_STRING_TOKEN [118], .char '%', .char '{',
          .QUOTED_STRING_TOKEN [118], .char '}']) := by
    decide +kernel
  have hrest : ParseL ⟨some, fun _ => none⟩ false 3 (numberedHeader 1) false [.char ':',
      .QUOTED_STRING_TOKEN [118], .char '%', .char '{', .QUOTED_STRING_TOKEN [118], .char '}'] =
        .ok (numberedWriter 1) := by
    decide +kernel
  have hspelled : (spellings (numberedTokens [52, 50, 57, 52, 57, 54, 55, 50, 57, 55]).tail).take 4 =
      [[52, 50, 57, 52, 57, 54, 55, 50, 57, 55], [49], [50], [51]] := by
    decide +kernel
  obtain ⟨info, hinfo⟩ : ∃ info, CreateSISInfo plainEnv (numberedWriter 1) false = .ok info := ⟨_, rfl⟩
  obtain ⟨numbers, ⟨uid, _, _, _, hliterals, hliteral, -⟩, hfits, -⟩ :=
    h _ _ _ _ _ _ _ _ _ hlex hheader hrest hinfo
  rw [hspelled] at hliterals
  obtain rfl := (List.cons.inj hliterals).1
  have hvalue := toNat_convertedInt hfits.uid
  rw [← convertTemp_literal hliteral] at hvalue
  have hlarge : (convertTemp ([52, 50, 57, 52, 57, 54, 55, 50, 57, 55].map UInt16.toUInt32)).value.toNat =
      4294967297 := by
    decide +kernel
  rw [hlarge] at hvalue
  have := hfits.uid.2
  omega

end GnuPoc.Sis
