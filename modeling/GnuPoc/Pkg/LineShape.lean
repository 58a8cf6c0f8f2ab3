import GnuPoc.Lib.Outcome
import GnuPoc.Pkg.Parse

/-!
# GnuPoc.Pkg.LineShape — what a line of a package file looks like to its end

Whatever the parser accepts, it has taken whole lines from the front of the tokens.  A line ends in a closing
bracket, in a string, in `ENDIF`, in the rest of a comment, or in a number or a name behind a separator
(`EndsLine`).  Only the header line changes what the header has set.
-/

namespace GnuPoc.Pkg

open GnuPoc.Lib

/-! ### Ends of lines -/

/-- Numbers and names. -/
def Token.isValue : Token → Bool
  | NUMERIC_TOKEN _ | ALPHA_TOKEN _ => true
  | _ => false

def Token.isSeparator : Token → Bool
  | char c => c == ',' || c == '&' || c == '='
  | _ => false

theorem comma_isSeparator : Token.isSeparator (.char ',') = true := by decide

def EndsLine (used : List Token) : Prop :=
  ∃ front last, used = front ++ [last] ∧
    (last.isValue = true → ∃ front' separator, front = front' ++ [separator] ∧ separator.isSeparator = true)

/-- A line at the front of `ts`, with `rest` behind it. -/
def LineThen (ts rest : List Token) : Prop := ∃ used, ts = used ++ rest ∧ EndsLine used

section
variable {ts ts' rest : List Token}

theorem LineThen.suffix (h : LineThen ts rest) : rest <:+ ts := by
  obtain ⟨used, rfl, -⟩ := h
  exact List.suffix_append _ _

theorem LineThen.of_suffix (hs : ts' <:+ ts) (h : LineThen ts' rest) : LineThen ts rest := by
  obtain ⟨before, rfl⟩ := hs
  obtain ⟨used, rfl, front, last, rfl, hlast⟩ := h
  refine ⟨before ++ (front ++ [last]), by simp, before ++ front, last, by simp, fun hvalue => ?_⟩
  obtain ⟨front', separator, rfl, hseparator⟩ := hlast hvalue
  exact ⟨before ++ front', separator, by simp, hseparator⟩

theorem lineThen_last {last : Token} (h : last.isValue = false) (rest : List Token) :
    LineThen (last :: rest) rest :=
  ⟨[last], rfl, [], last, rfl, fun hvalue => by simp [h] at hvalue⟩

theorem lineThen_value {separator : Token} (h : separator.isSeparator = true) (value : Token)
    (rest : List Token) : LineThen (separator :: value :: rest) rest :=
  ⟨[separator, value], rfl, [separator], value, rfl, fun _ => ⟨[], separator, rfl, h⟩⟩

theorem suffix_cons {t : Token} (h : ts' <:+ ts) : ts' <:+ t :: ts := h.trans (List.suffix_cons t ts)

end

/-! ### Single tokens -/

section
variable {ts rest : List Token}

theorem current_eq {t : Token} (h : current ts = t) (ht : t ≠ .EOF_TOKEN) : ts = t :: ts.tail := by
  rcases ts with - | ⟨t', ts⟩
  · exact absurd h.symm ht
  · rw [← h]
    rfl

theorem expectToken_eq_ok {t : Token} (ht : t ≠ .EOF_TOKEN) (h : ExpectToken t ts = .ok rest) : ts = t :: rest := by
  rw [ExpectToken] at h
  split at h
  · next hcurrent =>
    cases h
    exact current_eq hcurrent ht
  · cases h

theorem expectString_eq_ok {s : WStr} (h : expectString ts = .ok (s, rest)) :
    ts = .QUOTED_STRING_TOKEN s :: rest := by
  rw [expectString.eq_def] at h
  split at h
  · cases h
    rfl
  · cases h

theorem expectNumber_eq_ok {n : UInt64} (h : expectNumber ts = .ok (n, rest)) :
    ts = .NUMERIC_TOKEN n :: rest := by
  rw [expectNumber.eq_def] at h
  split at h
  · cases h
    rfl
  · cases h

theorem expectOption_eq_ok {α : Type} {options : List (String × α)} {v : α}
    (h : expectOption options ts = .ok (v, rest)) : ∃ s, ts = .ALPHA_TOKEN s :: rest := by
  rw [expectOption.eq_def] at h
  split at h
  · next s rest' =>
    obtain ⟨v', -, h⟩ := bind_eq_ok.mp h
    cases h
    exact ⟨s, rfl⟩
  · cases h

end

/-! ### The lines outside the body -/

section
variable {ts rest : List Token} {w w' : CSISWriter}

/-- What the header line sets. -/
structure HeaderInfo where
  m_dwUID : UInt32
  m_wMajor : UInt16
  m_wMinor : UInt16
  m_dwBuild : UInt32
  m_pLangStringBase : List WStr
  deriving DecidableEq, Repr

def CSISWriter.header (w : CSISWriter) : HeaderInfo :=
  ⟨w.m_dwUID, w.m_wMajor, w.m_wMinor, w.m_dwBuild, w.m_pLangStringBase⟩

theorem langStrings_suffix {n : ℕ} {base base' : List WStr} (h : langStrings n base ts = .ok (base', rest)) :
    rest <:+ ts := by
  induction n generalizing base ts with
  | zero =>
    cases h
    exact List.suffix_rfl
  | succ n ih =>
    obtain ⟨⟨s, ts₁⟩, hs, h⟩ := bind_eq_ok.mp h
    rw [expectString_eq_ok hs]
    dsimp only at h
    split at h
    · cases h
      exact List.suffix_cons _ _
    · obtain ⟨ts₂, hcomma, h⟩ := bind_eq_ok.mp h
      rw [expectToken_eq_ok (by simp) hcomma]
      exact suffix_cons (suffix_cons (ih h))

theorem namesBlock_line {base base' : List WStr} (h : namesBlock w base ts = .ok (base', rest)) :
    LineThen ts rest := by
  obtain ⟨ts₁, hopen, h⟩ := bind_eq_ok.mp h
  obtain ⟨⟨base₁, ts₂⟩, hstrings, h⟩ := bind_eq_ok.mp h
  obtain ⟨ts₃, hclose, h⟩ := bind_eq_ok.mp h
  cases h
  rw [expectToken_eq_ok (by simp) hopen]
  rw [expectToken_eq_ok (by simp) hclose] at hstrings
  exact .of_suffix (suffix_cons (langStrings_suffix hstrings)) (lineThen_last rfl _)

theorem languageCode_eq_ok {wLang : UInt16} (h : languageCode ts = .ok (wLang, rest)) :
    ∃ t, ts = t :: rest := by
  rw [languageCode.eq_def] at h
  split at h
  · split at h
    · cases h
      exact ⟨_, rfl⟩
    · cases h
  · split at h
    · cases h
      exact ⟨_, rfl⟩
    · cases h
  · cases h

theorem languageDialect_line {wLang wLang' : UInt16} (h : languageDialect wLang ts = .ok (wLang', rest)) :
    rest = ts ∨ LineThen ts rest := by
  rw [languageDialect] at h
  split at h
  · next hopen =>
    obtain ⟨⟨n, ts₁⟩, hn, h⟩ := bind_eq_ok.mp h
    obtain ⟨ts₂, hclose, h⟩ := bind_eq_ok.mp h
    cases h
    have hts := current_eq hopen (by simp)
    rw [hts, expectNumber_eq_ok hn, expectToken_eq_ok (by simp) hclose]
    exact .inr (.of_suffix (suffix_cons (List.suffix_cons _ _)) (lineThen_last rfl _))
  · cases h
    exact .inl rfl

/-- A list of languages behind `&` or `,`. -/
theorem languagesLoop_line {n : ℕ} {separator : Token} (hs : separator.isSeparator = true)
    (h : languagesLoop n w ts = .ok (w', rest)) :
    LineThen (separator :: ts) rest ∧ w'.header = w.header := by
  induction n generalizing w ts separator with
  | zero => cases h
  | succ n ih =>
    obtain ⟨⟨wLang, ts₁⟩, hcode, h⟩ := bind_eq_ok.mp h
    obtain ⟨⟨wLang', ts₂⟩, hdialect, h⟩ := bind_eq_ok.mp h
    obtain ⟨t, hts₁⟩ := languageCode_eq_ok hcode
    have hline : LineThen (separator :: ts) ts₂ := by
      rw [hts₁]
      rcases languageDialect_line hdialect with rfl | hline
      · exact lineThen_value hs t _
      · exact .of_suffix (suffix_cons (List.suffix_cons _ _)) hline
    dsimp only at h
    split at h
    · next hcomma =>
      have hts := current_eq hcomma (by simp)
      obtain ⟨hrest, hw⟩ := ih comma_isSeparator h
      rw [← hts] at hrest
      exact ⟨.of_suffix hline.suffix hrest, hw⟩
    · cases h
      exact ⟨hline, rfl⟩

theorem parseLanguagesL_line (h : ParseLanguagesL w ts = .ok (w', rest)) :
    LineThen (.char '&' :: ts) rest ∧ w'.header = w.header := by
  rw [ParseLanguagesL] at h
  split at h
  · cases h
  · exact languagesLoop_line (by decide) h

theorem headerOptions_line {dwType dwType' : UInt32} {dwFlags dwFlags' : UInt16}
    (h : headerOptions dwType dwFlags ts = .ok (dwType', dwFlags', rest)) : rest = ts ∨ LineThen ts rest := by
  induction dwType, dwFlags, ts using headerOptions.induct with
  | case1 dwType dwFlags s ts ih =>
    rw [headerOptions] at h
    obtain ⟨type, -, h⟩ := bind_eq_ok.mp h
    have hline : LineThen (.char ',' :: .TYPE_TOKEN :: .char '=' :: .ALPHA_TOKEN s :: ts) ts :=
      .of_suffix (suffix_cons (List.suffix_cons _ _)) (lineThen_value (by decide) _ _)
    rcases ih type h with rfl | hrest
    · exact .inr hline
    · exact .inr (.of_suffix hline.suffix hrest)
  | case2 dwType dwFlags s ts ih =>
    rw [headerOptions] at h
    obtain ⟨option, -, h⟩ := bind_eq_ok.mp h
    have hline : LineThen (.char ',' :: .ALPHA_TOKEN s :: ts) ts := lineThen_value comma_isSeparator _ _
    rcases ih option h with rfl | hrest
    · exact .inr hline
    · exact .inr (.of_suffix hline.suffix hrest)
  | case3 dwType dwFlags ts h₁ h₂ =>
    rw [headerOptions] at h
    · cases h
    · exact h₁
    · exact h₂
  | case4 dwType dwFlags ts h₁ h₂ h₃ =>
    rw [headerOptions] at h
    · cases h
      exact .inl rfl
    · exact h₁
    · exact h₂
    · exact h₃

/-- What a header line consists of, and what it sets. -/
theorem parseHeaderL_eq_ok (h : ParseHeaderL w ts = .ok (w', rest)) :
    w.AreLangStringInit = false ∧ ∃ names front options uid major minor build,
      namesBlock (assumeEnglish w) w.m_pLangStringBase ts = .ok (names, front) ∧
      front = [.char ',', .char '(', .NUMERIC_TOKEN uid, .char ')', .char ',', .NUMERIC_TOKEN major, .char ',',
        .NUMERIC_TOKEN minor, .char ',', .NUMERIC_TOKEN build] ++ options ∧
      (rest = options ∨ LineThen options rest) ∧
      w'.header = ⟨uid.toUInt32, major.toUInt16, minor.toUInt16, build.toUInt32, names⟩ := by
  rw [ParseHeaderL] at h
  split at h
  · cases h
  · next hnot =>
    obtain ⟨⟨names, ts₀⟩, hnames, h⟩ := bind_eq_ok.mp h
    obtain ⟨ts₁, h₁, h⟩ := bind_eq_ok.mp h
    obtain ⟨ts₂, h₂, h⟩ := bind_eq_ok.mp h
    obtain ⟨⟨uid, ts₃⟩, h₃, h⟩ := bind_eq_ok.mp h
    obtain ⟨ts₄, h₄, h⟩ := bind_eq_ok.mp h
    obtain ⟨ts₅, h₅, h⟩ := bind_eq_ok.mp h
    obtain ⟨⟨major, ts₆⟩, h₆, h⟩ := bind_eq_ok.mp h
    obtain ⟨ts₇, h₇, h⟩ := bind_eq_ok.mp h
    obtain ⟨⟨minor, ts₈⟩, h₈, h⟩ := bind_eq_ok.mp h
    obtain ⟨ts₉, h₉, h⟩ := bind_eq_ok.mp h
    obtain ⟨⟨build, options⟩, h₁₀, h⟩ := bind_eq_ok.mp h
    obtain ⟨⟨dwType, dwFlags, rest'⟩, h₁₁, h⟩ := bind_eq_ok.mp h
    cases h
    refine ⟨by simpa using hnot, names, ts₀, options, uid, major, minor, build, ?_, ?_, headerOptions_line h₁₁, rfl⟩
    · have hbase : (assumeEnglish w).m_pLangStringBase = w.m_pLangStringBase := by
        rw [assumeEnglish]
        split <;> rfl
      rwa [hbase] at hnames
    · rw [expectToken_eq_ok (by simp) h₁, expectToken_eq_ok (by simp) h₂, expectNumber_eq_ok h₃,
        expectToken_eq_ok (by simp) h₄, expectToken_eq_ok (by simp) h₅, expectNumber_eq_ok h₆,
        expectToken_eq_ok (by simp) h₇, expectNumber_eq_ok h₈, expectToken_eq_ok (by simp) h₉,
        expectNumber_eq_ok h₁₀]
      rfl

theorem parseHeaderL_line (h : ParseHeaderL w ts = .ok (w', rest)) : LineThen ts rest := by
  obtain ⟨-, names, front, options, uid, major, minor, build, hnames, rfl, hrest, -⟩ := parseHeaderL_eq_ok h
  have hsuffix : .char ',' :: .NUMERIC_TOKEN build :: options <:+
      [.char ',', .char '(', .NUMERIC_TOKEN uid, .char ')', .char ',', .NUMERIC_TOKEN major, .char ',',
        .NUMERIC_TOKEN minor, .char ',', .NUMERIC_TOKEN build] ++ options :=
    ⟨[.char ',', .char '(', .NUMERIC_TOKEN uid, .char ')', .char ',', .NUMERIC_TOKEN major, .char ',',
      .NUMERIC_TOKEN minor], rfl⟩
  have hnumbers : LineThen ts options :=
    .of_suffix (hsuffix.trans (namesBlock_line hnames).suffix) (lineThen_value comma_isSeparator _ _)
  rcases hrest with rfl | hrest
  · exact hnumbers
  · exact .of_suffix hnumbers.suffix hrest

theorem assumeEnglish_header (w : CSISWriter) : (assumeEnglish w).header = w.header := by
  rw [assumeEnglish]
  split <;> rfl

theorem parseLocalizedVendorNamesL_line (h : ParseLocalizedVendorNamesL w ts = .ok (w', rest)) :
    LineThen ts rest ∧ w'.header = w.header := by
  rw [ParseLocalizedVendorNamesL] at h
  split at h
  · cases h
  · obtain ⟨⟨names, ts₁⟩, hnames, h⟩ := bind_eq_ok.mp h
    cases h
    exact ⟨namesBlock_line hnames, assumeEnglish_header w⟩

theorem parseVendorNameL_line (h : ParseVendorNameL w ts = .ok (w', rest)) :
    LineThen ts rest ∧ w'.header = w.header := by
  rw [ParseVendorNameL] at h
  split at h
  · cases h
  · obtain ⟨⟨name, ts₁⟩, hname, h⟩ := bind_eq_ok.mp h
    cases h
    rw [expectString_eq_ok hname]
    exact ⟨lineThen_last rfl _, rfl⟩

theorem parseLogoL_line {env : ParseEnv} (h : ParseLogoL env w ts = .ok (w', rest)) :
    LineThen ts rest ∧ w'.header = w.header := by
  obtain ⟨⟨name, ts₁⟩, h₁, h⟩ := bind_eq_ok.mp h
  obtain ⟨source, -, h⟩ := bind_eq_ok.mp h
  obtain ⟨ts₂, h₂, h⟩ := bind_eq_ok.mp h
  obtain ⟨⟨mime, ts₃⟩, h₃, h⟩ := bind_eq_ok.mp h
  obtain ⟨ts₄, h₄, h⟩ := bind_eq_ok.mp h
  obtain ⟨⟨dest, ts₅⟩, h₅, h⟩ := bind_eq_ok.mp h
  cases h
  rw [expectString_eq_ok h₁, expectToken_eq_ok (by simp) h₂, expectString_eq_ok h₃,
    expectToken_eq_ok (by simp) h₄, expectString_eq_ok h₅]
  exact ⟨.of_suffix ⟨[_, _, _, _], rfl⟩ (lineThen_last rfl _), rfl⟩

/-! ### Dependencies and signature -/

theorem getVersionNumToken_suffix {v : UInt32} (h : GetVersionNumToken ts = .ok (v, rest)) : rest <:+ ts := by
  rw [GetVersionNumToken.eq_def] at h
  split at h
  · cases h
    exact List.suffix_cons _ _
  · cases h
    exact List.suffix_cons _ _
  · cases h

theorem versionNumbers_suffix {v : UInt32 × UInt32 × UInt32} (h : versionNumbers ts = .ok (v, rest)) :
    rest <:+ ts := by
  obtain ⟨⟨major, ts₁⟩, h₁, h⟩ := bind_eq_ok.mp h
  obtain ⟨ts₂, h₂, h⟩ := bind_eq_ok.mp h
  obtain ⟨⟨minor, ts₃⟩, h₃, h⟩ := bind_eq_ok.mp h
  obtain ⟨ts₄, h₄, h⟩ := bind_eq_ok.mp h
  obtain ⟨⟨build, ts₅⟩, h₅, h⟩ := bind_eq_ok.mp h
  cases h
  have hmajor := getVersionNumToken_suffix h₁
  have hminor := getVersionNumToken_suffix h₃
  rw [expectToken_eq_ok (by simp) h₂] at hmajor
  rw [expectToken_eq_ok (by simp) h₄] at hminor
  exact ((getVersionNumToken_suffix h₅).trans (List.suffix_cons _ _)).trans
    ((hminor.trans (List.suffix_cons _ _)).trans hmajor)

theorem toVersion_suffix {v : Option (UInt32 × UInt32 × UInt32)} (h : toVersion ts = .ok (v, rest)) :
    rest <:+ ts := by
  rw [toVersion] at h
  split at h
  · obtain ⟨⟨version, ts₁⟩, hversion, h⟩ := bind_eq_ok.mp h
    cases h
    exact (versionNumbers_suffix hversion).trans (List.tail_suffix ts)
  · cases h
    exact List.suffix_rfl

theorem parseDependencyL_line {close : Char} {depend : DEPENDNODE}
    (h : ParseDependencyL close w ts = .ok (depend, rest)) : LineThen ts rest := by
  obtain ⟨-, -, h⟩ := bind_eq_ok.mp h
  obtain ⟨⟨uid, ts₁⟩, h₁, h⟩ := bind_eq_ok.mp h
  obtain ⟨ts₂, h₂, h⟩ := bind_eq_ok.mp h
  obtain ⟨ts₃, h₃, h⟩ := bind_eq_ok.mp h
  obtain ⟨⟨version, ts₄⟩, h₄, h⟩ := bind_eq_ok.mp h
  obtain ⟨⟨second, ts₅⟩, h₅, h⟩ := bind_eq_ok.mp h
  obtain ⟨ts₆, h₆, h⟩ := bind_eq_ok.mp h
  obtain ⟨⟨names, ts₇⟩, h₇, h⟩ := bind_eq_ok.mp h
  cases h
  have hto := toVersion_suffix h₅
  rw [expectToken_eq_ok (by simp) h₆] at hto
  rw [expectNumber_eq_ok h₁, expectToken_eq_ok (by simp) h₂, expectToken_eq_ok (by simp) h₃]
  refine .of_suffix ?_ (namesBlock_line h₇)
  exact suffix_cons (suffix_cons (suffix_cons (((List.suffix_cons _ _).trans hto).trans (versionNumbers_suffix h₄))))

theorem parseSignatureL_line (h : ParseSignatureL w ts = .ok rest) : LineThen ts rest := by
  obtain ⟨-, -, h⟩ := bind_eq_ok.mp h
  obtain ⟨⟨key, ts₁⟩, h₁, h⟩ := bind_eq_ok.mp h
  obtain ⟨ts₂, h₂, h⟩ := bind_eq_ok.mp h
  obtain ⟨⟨certificate, ts₃⟩, h₃, h⟩ := bind_eq_ok.mp h
  rw [expectString_eq_ok h₁, expectToken_eq_ok (by simp) h₂, expectString_eq_ok h₃]
  dsimp only at h
  split at h
  · obtain ⟨ts₄, h₄, h⟩ := bind_eq_ok.mp h
    obtain ⟨⟨password, ts₅⟩, h₅, h⟩ := bind_eq_ok.mp h
    cases h
    rw [expectToken_eq_ok (by simp) h₄, expectString_eq_ok h₅]
    exact .of_suffix ⟨[_, _, _, _, _, _], rfl⟩ (lineThen_last rfl _)
  · cases h
    exact .of_suffix ⟨[_, _, _], rfl⟩ (lineThen_last rfl _)
  · cases h
    exact .of_suffix ⟨[_, _], rfl⟩ (lineThen_last rfl _)

end

end GnuPoc.Pkg
