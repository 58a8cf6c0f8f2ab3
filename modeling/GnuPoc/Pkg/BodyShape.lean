import GnuPoc.Pkg.LineShape

/-!
# GnuPoc.Pkg.BodyShape — the lines of the body, the blocks and the whole file to their ends

The conditions need not end a line, so that of them only the front that they take is of interest.  A block takes
nothing or ends with a line.
-/

namespace GnuPoc.Pkg

open GnuPoc.Lib

/-- Nothing, or lines up to `rest`. -/
def LinesThen (ts rest : List Token) : Prop := rest = ts ∨ LineThen ts rest

section
variable {ts ts' rest : List Token}

theorem LinesThen.suffix (h : LinesThen ts rest) : rest <:+ ts := by
  rcases h with rfl | h
  · exact List.suffix_rfl
  · exact h.suffix

theorem LineThen.lines (h : LineThen ts ts') (h' : LinesThen ts' rest) : LineThen ts rest := by
  rcases h' with rfl | h'
  · exact h
  · exact .of_suffix h.suffix h'

end

/-! ### Conditions -/

/-- What the functions for conditions of this fuel take. -/
structure ConditionsTake (n : ℕ) : Prop where
  logicalOp : ∀ {ts c rest}, ParseLogicalOp n ts = .ok (c, rest) → rest <:+ ts
  loop : ∀ {left ts c rest}, logicalOpLoop n left ts = .ok (c, rest) → rest <:+ ts
  relation : ∀ {ts c rest}, ParseRelation n ts = .ok (c, rest) → rest <:+ ts
  unary : ∀ {ts c rest}, ParseUnary n ts = .ok (c, rest) → rest <:+ ts
  factor : ∀ {ts c rest}, ParseFactor n ts = .ok (c, rest) → rest <:+ ts

section
variable {n : ℕ} {ts rest : List Token} {c : PKGLINECONDITION}

theorem parseFactor_suffix (ih : ConditionsTake n) (h : ParseFactor (n + 1) ts = .ok (c, rest)) : rest <:+ ts := by
  rw [ParseFactor.eq_def] at h
  dsimp only at h
  split at h
  · cases ‹_›
  · cases ‹n + 1 = _›
    obtain ⟨⟨expr, ts₁⟩, hexpr, h⟩ := bind_eq_ok.mp h
    obtain ⟨ts₂, hclose, h⟩ := bind_eq_ok.mp h
    cases h
    have hts₁ : ts₁ = _ := expectToken_eq_ok (by simp) hclose
    have hsuffix := ih.logicalOp hexpr
    rw [hts₁] at hsuffix
    exact suffix_cons ((List.suffix_cons _ _).trans hsuffix)
  · cases h
    exact List.suffix_cons _ _
  · obtain ⟨v, -, h⟩ := bind_eq_ok.mp h
    cases h
    exact List.suffix_cons _ _
  · cases h
    exact List.suffix_cons _ _
  · cases h

theorem bracketed_suffix {α : Type} {ts₁ ts₂ ts₃ : List Token} {x : α × List Token}
    {expect : List Token → PRes (α × List Token)} (ih : ConditionsTake n)
    (hopen : ExpectToken (.char '(') ts = .ok ts₁) (_hexpect : expect ts₁ = .ok x)
    (harg : ParseUnary n ts₁ = .ok (c, ts₂)) (hclose : ExpectToken (.char ')') ts₂ = .ok ts₃) : ts₃ <:+ ts := by
  have hsuffix := ih.unary harg
  rw [expectToken_eq_ok (by simp) hclose] at hsuffix
  rw [expectToken_eq_ok (by simp) hopen]
  exact suffix_cons ((List.suffix_cons _ _).trans hsuffix)

theorem parseUnary_suffix (ih : ConditionsTake n) (h : ParseUnary (n + 1) ts = .ok (c, rest)) : rest <:+ ts := by
  rw [ParseUnary.eq_def] at h
  dsimp only at h
  split at h
  · cases ‹_›
  · cases ‹n + 1 = _›
    obtain ⟨⟨arg, ts₁⟩, harg, h⟩ := bind_eq_ok.mp h
    cases h
    exact suffix_cons (ih.unary harg)
  · cases ‹n + 1 = _›
    obtain ⟨ts₁, h₁, h⟩ := bind_eq_ok.mp h
    obtain ⟨_, h₂, h⟩ := bind_eq_ok.mp h
    obtain ⟨⟨arg₀, ts₂⟩, h₃, h⟩ := bind_eq_ok.mp h
    obtain ⟨ts₃, h₄, h⟩ := bind_eq_ok.mp h
    obtain ⟨_, h₅, h⟩ := bind_eq_ok.mp h
    obtain ⟨⟨arg₁, ts₄⟩, h₆, h⟩ := bind_eq_ok.mp h
    obtain ⟨ts₅, h₇, h⟩ := bind_eq_ok.mp h
    cases h
    have hts₂ : ts₂ = _ := expectToken_eq_ok (by simp) h₄
    have hts₄ : ts₄ = _ := expectToken_eq_ok (by simp) h₇
    have hfirst := ih.unary h₃
    have hsecond := ih.unary h₆
    rw [hts₂] at hfirst
    rw [hts₄] at hsecond
    rw [expectToken_eq_ok (by simp) h₁]
    exact suffix_cons (suffix_cons (((List.suffix_cons _ _).trans hsecond).trans
      ((List.suffix_cons _ _).trans hfirst)))
  · cases ‹n + 1 = _›
    obtain ⟨ts₁, h₁, h⟩ := bind_eq_ok.mp h
    obtain ⟨_, h₂, h⟩ := bind_eq_ok.mp h
    obtain ⟨⟨arg, ts₂⟩, h₃, h⟩ := bind_eq_ok.mp h
    obtain ⟨ts₃, h₄, h⟩ := bind_eq_ok.mp h
    cases h
    exact suffix_cons (bracketed_suffix ih h₁ h₂ h₃ h₄)
  · cases ‹n + 1 = _›
    obtain ⟨ts₁, h₁, h⟩ := bind_eq_ok.mp h
    obtain ⟨_, h₂, h⟩ := bind_eq_ok.mp h
    obtain ⟨⟨arg, ts₂⟩, h₃, h⟩ := bind_eq_ok.mp h
    obtain ⟨ts₃, h₄, h⟩ := bind_eq_ok.mp h
    cases h
    exact suffix_cons (bracketed_suffix ih h₁ h₂ h₃ h₄)
  · cases ‹n + 1 = _›
    exact ih.factor h

theorem parseRelation_suffix (ih : ConditionsTake n) (h : ParseRelation (n + 1) ts = .ok (c, rest)) :
    rest <:+ ts := by
  rw [ParseRelation.eq_def] at h
  dsimp only at h
  obtain ⟨⟨left, ts₁⟩, hleft, h⟩ := bind_eq_ok.mp h
  dsimp only at h
  split at h
  · cases h
    exact ih.unary hleft
  · obtain ⟨⟨right, ts₂⟩, hright, h⟩ := bind_eq_ok.mp h
    cases h
    exact ((ih.unary hright).trans (List.tail_suffix _)).trans (ih.unary hleft)

/-- Conditions are taken from the front of the tokens. -/
theorem conditionsTake (n : ℕ) : ConditionsTake n := by
  induction n with
  | zero =>
    constructor
    · intro ts c rest h
      cases h
    · intro left ts c rest h
      cases h
    · intro ts c rest h
      cases h
    · intro ts c rest h
      cases h
    · intro ts c rest h
      cases h
  | succ n ih =>
    constructor
    · intro ts c rest h
      rw [ParseLogicalOp.eq_def] at h
      dsimp only at h
      obtain ⟨⟨left, ts₁⟩, hleft, h⟩ := bind_eq_ok.mp h
      exact (ih.loop h).trans (ih.relation hleft)
    · intro left ts c rest h
      rw [logicalOpLoop.eq_def] at h
      dsimp only at h
      split at h
      · cases h
        exact List.suffix_rfl
      · obtain ⟨⟨right, ts₁⟩, hright, h⟩ := bind_eq_ok.mp h
        exact ((ih.loop h).trans (ih.logicalOp hright)).trans (List.tail_suffix _)
    · exact parseRelation_suffix ih
    · exact parseUnary_suffix ih
    · exact parseFactor_suffix ih

end

/-! ### Lines of the body -/

section
variable {env : ParseEnv} {ts rest : List Token} {w w' : CSISWriter}

theorem optionLoop_lines {further : Option (List (String × UInt32) × (UInt32 → UInt32 → UInt32))}
    {dwOptions dwOptions' : UInt32} (h : optionLoop further dwOptions ts = .ok (dwOptions', rest)) :
    LinesThen ts rest := by
  induction dwOptions, ts using optionLoop.induct further with
  | case1 dwOptions ts hfurther =>
    subst hfurther
    rw [optionLoop] at h
    cases h
  | case2 dwOptions table update s ts hfurther ih =>
    subst hfurther
    rw [optionLoop] at h
    obtain ⟨options, -, h⟩ := bind_eq_ok.mp h
    exact .inr ((lineThen_value comma_isSeparator _ _).lines (ih options h))
  | case3 dwOptions ts table hfurther hnot =>
    subst hfurther
    rw [optionLoop] at h
    · cases h
    · exact hnot
  | case4 dwOptions ts hnot =>
    rw [optionLoop] at h
    · cases h
      exact .inl rfl
    · exact hnot

theorem typeOptions_lines {text : UInt32 → UInt32 → UInt32} {type : TInstFileType} {mime : WStr} {options : UInt32}
    (h : typeOptions text type ts = .ok (mime, options, rest)) : LinesThen ts rest := by
  rw [typeOptions] at h
  split at h
  · obtain ⟨ts₁, h₁, h⟩ := bind_eq_ok.mp h
    obtain ⟨⟨mime', ts₂⟩, h₂, h⟩ := bind_eq_ok.mp h
    obtain ⟨⟨options', ts₃⟩, h₃, h⟩ := bind_eq_ok.mp h
    cases h
    rw [expectToken_eq_ok (by simp) h₁, expectString_eq_ok h₂]
    have hmime : LineThen (.char ',' :: .QUOTED_STRING_TOKEN mime :: ts₂) ts₂ :=
      .of_suffix (List.suffix_cons _ _) (lineThen_last rfl _)
    exact .inr (hmime.lines (optionLoop_lines h₃))
  · obtain ⟨⟨options', ts₁⟩, h₁, h⟩ := bind_eq_ok.mp h
    cases h
    exact optionLoop_lines h₁

theorem type_line {type : TInstFileType} {text : UInt32 → UInt32 → UInt32} {mime : WStr} {options : UInt32}
    {ts₁ : List Token} (htype : expectOption KTypeOptions ts = .ok (type, ts₁))
    (h : typeOptions text type ts₁ = .ok (mime, options, rest)) : LineThen (.char ',' :: ts) rest := by
  obtain ⟨s, hts⟩ := expectOption_eq_ok htype
  rw [hts]
  exact (lineThen_value comma_isSeparator _ _).lines (typeOptions_lines h)

theorem fileTypeL_lines {pszSource pszDest : WStr} {file : PKGLINEFILE}
    (h : fileTypeL pszSource pszDest ts = .ok (file, rest)) : LinesThen ts rest := by
  rw [fileTypeL.eq_def] at h
  split at h
  · obtain ⟨⟨type, ts₁⟩, htype, h⟩ := bind_eq_ok.mp h
    obtain ⟨⟨mime, options, ts₂⟩, hoptions, h⟩ := bind_eq_ok.mp h
    cases h
    exact .inr (type_line htype hoptions)
  · cases h
    exact .inl rfl

theorem parseFileL_line (h : ParseFileL env w ts = .ok (w', rest)) : LineThen ts rest ∧ w'.header = w.header := by
  obtain ⟨-, -, h⟩ := bind_eq_ok.mp h
  obtain ⟨⟨name, ts₁⟩, h₁, h⟩ := bind_eq_ok.mp h
  obtain ⟨source, -, h⟩ := bind_eq_ok.mp h
  obtain ⟨ts₂, h₂, h⟩ := bind_eq_ok.mp h
  obtain ⟨⟨dest, ts₃⟩, h₃, h⟩ := bind_eq_ok.mp h
  dsimp only at h
  split at h
  · cases h
  · obtain ⟨⟨file, ts₄⟩, h₄, h⟩ := bind_eq_ok.mp h
    cases h
    rw [expectString_eq_ok h₁, expectToken_eq_ok (by simp) h₂, expectString_eq_ok h₃]
    have hdest : LineThen (.QUOTED_STRING_TOKEN name :: .char '-' :: .QUOTED_STRING_TOKEN dest :: ts₃) ts₃ :=
      .of_suffix ⟨[_, _], rfl⟩ (lineThen_last rfl _)
    exact ⟨hdest.lines (fileTypeL_lines h₄), rfl⟩

theorem componentUid_line {uid : UInt32} (h : componentUid ts = .ok (uid, rest)) : LineThen ts rest := by
  obtain ⟨ts₁, h₁, h⟩ := bind_eq_ok.mp h
  obtain ⟨ts₂, h₂, h⟩ := bind_eq_ok.mp h
  obtain ⟨⟨n, ts₃⟩, h₃, h⟩ := bind_eq_ok.mp h
  obtain ⟨ts₄, h₄, h⟩ := bind_eq_ok.mp h
  cases h
  rw [expectToken_eq_ok (by simp) h₁, expectToken_eq_ok (by simp) h₂, expectNumber_eq_ok h₃,
    expectToken_eq_ok (by simp) h₄]
  exact .of_suffix ⟨[_, _, _], rfl⟩ (lineThen_last rfl _)

theorem parsePackageL_line (h : ParsePackageL env w ts = .ok (w', rest)) :
    LineThen ts rest ∧ w'.header = w.header := by
  obtain ⟨-, -, h⟩ := bind_eq_ok.mp h
  obtain ⟨⟨name, ts₁⟩, h₁, h⟩ := bind_eq_ok.mp h
  obtain ⟨source, -, h⟩ := bind_eq_ok.mp h
  obtain ⟨⟨uid, ts₂⟩, h₂, h⟩ := bind_eq_ok.mp h
  obtain ⟨-, -, h⟩ := bind_eq_ok.mp h
  cases h
  rw [expectString_eq_ok h₁]
  exact ⟨.of_suffix (List.suffix_cons _ _) (componentUid_line h₂), rfl⟩

theorem optionsLoop_suffix {numLangs n : ℕ} {option option' : PKGLINEOPTIONS}
    (h : optionsLoop numLangs n option ts = .ok (option', rest)) : rest <:+ ts := by
  induction n generalizing option ts with
  | zero => cases h
  | succ n ih =>
    obtain ⟨ts₁, h₁, h⟩ := bind_eq_ok.mp h
    obtain ⟨⟨base, ts₂⟩, h₂, h⟩ := bind_eq_ok.mp h
    obtain ⟨ts₃, h₃, h⟩ := bind_eq_ok.mp h
    have hts₂ : ts₂ = _ := expectToken_eq_ok (by simp) h₃
    have hstrings := langStrings_suffix h₂
    rw [hts₂] at hstrings
    rw [expectToken_eq_ok (by simp) h₁]
    have hts₃ : ts₃ <:+ .char '{' :: ts₁ := suffix_cons ((List.suffix_cons _ _).trans hstrings)
    dsimp only at h
    split at h
    · exact ((ih h).trans (List.suffix_cons _ _)).trans hts₃
    · cases h
      exact hts₃

theorem parseOptionsBlockL_line (h : ParseOptionsBlockL w ts = .ok (w', rest)) :
    LineThen ts rest ∧ w'.header = w.header := by
  obtain ⟨ts₁, h₁, h⟩ := bind_eq_ok.mp h
  obtain ⟨⟨option, ts₂⟩, h₂, h⟩ := bind_eq_ok.mp h
  obtain ⟨ts₃, h₃, h⟩ := bind_eq_ok.mp h
  cases h
  have hts₂ : ts₂ = _ := expectToken_eq_ok (by simp) h₃
  have hoptions := optionsLoop_suffix h₂
  rw [hts₂] at hoptions
  rw [expectToken_eq_ok (by simp) h₁]
  exact ⟨.of_suffix (suffix_cons hoptions) (lineThen_last rfl _), rfl⟩

theorem languageSources_suffix {packages : Bool} {n : ℕ}
    (h : languageSources env packages n w ts = .ok (w', rest)) : rest <:+ ts ∧ w'.header = w.header := by
  induction n generalizing w ts with
  | zero =>
    cases h
    exact ⟨List.suffix_rfl, rfl⟩
  | succ n ih =>
    have hsplit : ∃ ts₁, ts₁ <:+ ts ∧ ∃ name ts₂ type source, ts₁ = .QUOTED_STRING_TOKEN name :: ts₂ ∧
        languageSources env packages n (w.AddPkgLineNode (.languageFile ⟨type, 0, source, [], []⟩)) ts₂ =
          .ok (w', rest) := by
      cases packages with
      | true =>
        rw [languageSources, if_pos rfl] at h
        obtain ⟨ts₁, h₁, h⟩ := bind_eq_ok.mp h
        obtain ⟨⟨name, ts₂⟩, h₂, h⟩ := bind_eq_ok.mp h
        obtain ⟨source, -, h⟩ := bind_eq_ok.mp h
        rw [expectToken_eq_ok (by simp) h₁]
        exact ⟨ts₁, List.suffix_cons _ _, name, ts₂, _, source, expectString_eq_ok h₂, h⟩
      | false =>
        rw [languageSources, if_neg (by simp), pres_ok_bind] at h
        obtain ⟨⟨name, ts₂⟩, h₂, h⟩ := bind_eq_ok.mp h
        obtain ⟨source, -, h⟩ := bind_eq_ok.mp h
        exact ⟨ts, List.suffix_rfl, name, ts₂, _, source, expectString_eq_ok h₂, h⟩
    obtain ⟨_, hts, name, ts₂, type, source, rfl, h⟩ := hsplit
    obtain ⟨hrest, hw⟩ := ih h
    exact ⟨(hrest.trans (List.suffix_cons _ _)).trans hts, hw⟩

theorem languageTypeL_lines {type : TInstFileType} {mime : WStr} {options : UInt32}
    (h : languageTypeL ts = .ok (type, mime, options, rest)) : LinesThen ts rest := by
  rw [languageTypeL.eq_def] at h
  split at h
  · obtain ⟨⟨type', ts₁⟩, htype, h⟩ := bind_eq_ok.mp h
    dsimp only at h
    split at h
    · cases h
    · obtain ⟨⟨mime', options', ts₂⟩, hoptions, h⟩ := bind_eq_ok.mp h
      cases h
      exact .inr (type_line htype hoptions)
  · cases h
    exact .inl rfl

theorem parseLanguageBlockL_line (h : ParseLanguageBlockL env w ts = .ok (w', rest)) :
    LineThen ts rest ∧ w'.header = w.header := by
  obtain ⟨-, -, h⟩ := bind_eq_ok.mp h
  obtain ⟨⟨w₁, ts₁⟩, h₁, h⟩ := bind_eq_ok.mp h
  obtain ⟨ts₂, h₂, h⟩ := bind_eq_ok.mp h
  obtain ⟨hsources, hw₁⟩ := languageSources_suffix h₁
  have hts₁ : ts₁ = _ := expectToken_eq_ok (by simp) h₂
  rw [hts₁] at hsources
  have hts₂ : ts₂ <:+ ts := (List.suffix_cons _ _).trans hsources
  split at h
  · obtain ⟨⟨uid, ts₃⟩, h₃, h⟩ := bind_eq_ok.mp h
    cases h
    exact ⟨.of_suffix hts₂ (componentUid_line h₃), hw₁⟩
  · obtain ⟨ts₃, h₃, h⟩ := bind_eq_ok.mp h
    obtain ⟨⟨dest, ts₄⟩, h₄, h⟩ := bind_eq_ok.mp h
    obtain ⟨⟨type, mime, options, ts₅⟩, h₅, h⟩ := bind_eq_ok.mp h
    cases h
    rw [expectToken_eq_ok (by simp) h₃, expectString_eq_ok h₄] at hts₂
    have hdest : LineThen (.char '-' :: .QUOTED_STRING_TOKEN dest :: ts₄) ts₄ :=
      .of_suffix (List.suffix_cons _ _) (lineThen_last rfl _)
    exact ⟨.of_suffix hts₂ (hdest.lines (languageTypeL_lines h₅)), hw₁⟩

theorem capabilityLoop_suffix {n : ℕ} (h : capabilityLoop n w ts = .ok (w', rest)) :
    rest <:+ ts ∧ w'.header = w.header := by
  induction n generalizing w ts with
  | zero => cases h
  | succ n ih =>
    obtain ⟨⟨key, ts₁⟩, h₁, h⟩ := bind_eq_ok.mp h
    obtain ⟨ts₂, h₂, h⟩ := bind_eq_ok.mp h
    obtain ⟨⟨value, ts₃⟩, h₃, h⟩ := bind_eq_ok.mp h
    rw [expectNumber_eq_ok h₁, expectToken_eq_ok (by simp) h₂, expectNumber_eq_ok h₃]
    dsimp only at h
    split at h
    · obtain ⟨hrest, hw⟩ := ih h
      exact ⟨suffix_cons (suffix_cons (suffix_cons (suffix_cons hrest))), hw⟩
    · cases h
      exact ⟨suffix_cons (suffix_cons (List.suffix_cons _ _)), rfl⟩

theorem parseCapabilityL_line (h : ParseCapabilityL w ts = .ok (w', rest)) :
    LineThen ts rest ∧ w'.header = w.header := by
  obtain ⟨-, -, h⟩ := bind_eq_ok.mp h
  obtain ⟨ts₁, h₁, h⟩ := bind_eq_ok.mp h
  obtain ⟨⟨w₁, ts₂⟩, h₂, h⟩ := bind_eq_ok.mp h
  obtain ⟨ts₃, h₃, h⟩ := bind_eq_ok.mp h
  cases h
  obtain ⟨hloop, hw⟩ := capabilityLoop_suffix h₂
  have hts₂ : ts₂ = _ := expectToken_eq_ok (by simp) h₃
  rw [hts₂] at hloop
  rw [expectToken_eq_ok (by simp) h₁]
  exact ⟨.of_suffix (suffix_cons hloop) (lineThen_last rfl _), hw⟩

theorem parseConditionL_suffix {node : PKGLINECONDITION → PKGLINENODE}
    (h : ParseConditionL node w ts = .ok (w', rest)) : rest <:+ ts ∧ w'.header = w.header := by
  obtain ⟨⟨cond, ts₁⟩, hcond, h⟩ := bind_eq_ok.mp h
  cases h
  exact ⟨(conditionsTake _).logicalOp hcond, rfl⟩

end

/-! ### Blocks -/

/-- What the functions for blocks of this fuel take. -/
structure BlocksTake (env : ParseEnv) (n : ℕ) : Prop where
  block : ∀ {w ts w' rest}, ParseEmbeddedBlockL env n w ts = .ok (w', rest) →
    LinesThen ts rest ∧ w'.header = w.header
  ifBlock : ∀ {w ts w' rest}, ParseIfBlockL env n w ts = .ok (w', rest) →
    LineThen ts rest ∧ w'.header = w.header
  elseIfs : ∀ {w ts w' rest}, elseIfLoop env n w ts = .ok (w', rest) →
    LineThen ts rest ∧ w'.header = w.header

section
variable {env : ParseEnv} {n : ℕ} {ts rest : List Token} {w w' : CSISWriter}

theorem BlocksTake.behind (ih : BlocksTake env n) {ts₁ : List Token} {w₁ : CSISWriter}
    (hline : LineThen ts ts₁ ∧ w₁.header = w.header) (h : ParseEmbeddedBlockL env n w₁ ts₁ = .ok (w', rest)) :
    LinesThen ts rest ∧ w'.header = w.header := by
  obtain ⟨hrest, hw⟩ := ih.block h
  exact ⟨.inr (hline.1.lines hrest), hw.trans hline.2⟩

theorem parseEmbeddedBlockL_lines (ih : BlocksTake env n)
    (h : ParseEmbeddedBlockL env (n + 1) w ts = .ok (w', rest)) : LinesThen ts rest ∧ w'.header = w.header := by
  have htail {ts₁ : List Token} (hline : LineThen ts.tail ts₁) : LineThen ts ts₁ :=
    .of_suffix (List.tail_suffix ts) hline
  rw [ParseEmbeddedBlockL.eq_def] at h
  dsimp only at h
  split at h
  · obtain ⟨⟨w₁, ts₁⟩, h₁, h⟩ := bind_eq_ok.mp h
    exact ih.behind (parseFileL_line h₁) h
  · obtain ⟨⟨w₁, ts₁⟩, h₁, h⟩ := bind_eq_ok.mp h
    exact ih.behind ((parsePackageL_line h₁).imp_left htail) h
  · obtain ⟨⟨w₁, ts₁⟩, h₁, h⟩ := bind_eq_ok.mp h
    exact ih.behind ((parseOptionsBlockL_line h₁).imp_left htail) h
  · obtain ⟨⟨w₁, ts₁⟩, h₁, h⟩ := bind_eq_ok.mp h
    exact ih.behind ((parseLanguageBlockL_line h₁).imp_left htail) h
  · obtain ⟨⟨w₁, ts₁⟩, h₁, h⟩ := bind_eq_ok.mp h
    exact ih.behind ((parseCapabilityL_line h₁).imp_left htail) h
  · obtain ⟨⟨w₁, ts₁⟩, h₁, h⟩ := bind_eq_ok.mp h
    exact ih.behind ((ih.ifBlock h₁).imp_left htail) h
  · next hcomment =>
    have hts := current_eq hcomment (by simp)
    have hline : LineThen ts ts.tail := by
      rw [hts]
      exact lineThen_last rfl _
    exact ih.behind ⟨hline, rfl⟩ h
  · cases h
    exact ⟨.inl rfl, rfl⟩

theorem parseIfBlockL_line (ih : BlocksTake env n) (h : ParseIfBlockL env (n + 1) w ts = .ok (w', rest)) :
    LineThen ts rest ∧ w'.header = w.header := by
  rw [ParseIfBlockL.eq_def] at h
  dsimp only at h
  obtain ⟨⟨w₁, ts₁⟩, h₁, h⟩ := bind_eq_ok.mp h
  obtain ⟨⟨w₂, ts₂⟩, h₂, h⟩ := bind_eq_ok.mp h
  obtain ⟨hcond, hw₁⟩ := parseConditionL_suffix h₁
  obtain ⟨hblock, hw₂⟩ := ih.block h₂
  obtain ⟨hrest, hw₃⟩ := ih.elseIfs h
  exact ⟨.of_suffix (hblock.suffix.trans hcond) hrest, hw₃.trans (hw₂.trans hw₁)⟩

theorem elseIfLoop_line (ih : BlocksTake env n) (h : elseIfLoop env (n + 1) w ts = .ok (w', rest)) :
    LineThen ts rest ∧ w'.header = w.header := by
  rw [elseIfLoop.eq_def] at h
  dsimp only at h
  split at h
  · obtain ⟨⟨w₁, ts₁⟩, h₁, h⟩ := bind_eq_ok.mp h
    obtain ⟨⟨w₂, ts₂⟩, h₂, h⟩ := bind_eq_ok.mp h
    obtain ⟨hcond, hw₁⟩ := parseConditionL_suffix h₁
    obtain ⟨hblock, hw₂⟩ := ih.block h₂
    obtain ⟨hrest, hw₃⟩ := ih.elseIfs h
    exact ⟨.of_suffix ((hblock.suffix.trans hcond).trans (List.tail_suffix ts)) hrest, hw₃.trans (hw₂.trans hw₁)⟩
  · obtain ⟨⟨w₁, ts₁⟩, h₁, h⟩ := bind_eq_ok.mp h
    obtain ⟨ts₂, h₂, h⟩ := bind_eq_ok.mp h
    cases h
    obtain ⟨hblock, hw₁⟩ := ih.block h₁
    have hts₁ : ts₁ = _ := expectToken_eq_ok (by simp) h₂
    have hsuffix := hblock.suffix.trans (List.tail_suffix ts)
    rw [hts₁] at hsuffix
    exact ⟨.of_suffix hsuffix (lineThen_last rfl _), hw₁⟩
  · obtain ⟨ts₁, h₁, h⟩ := bind_eq_ok.mp h
    cases h
    rw [expectToken_eq_ok (by simp) h₁]
    exact ⟨lineThen_last rfl _, rfl⟩

theorem blocksTake (env : ParseEnv) (n : ℕ) : BlocksTake env n := by
  induction n with
  | zero =>
    constructor
    · intro w ts w' rest h
      cases h
    · intro w ts w' rest h
      cases h
    · intro w ts w' rest h
      cases h
  | succ n ih => exact ⟨parseEmbeddedBlockL_lines ih, parseIfBlockL_line ih, elseIfLoop_line ih⟩

end

/-! ### The file -/

section
variable {env : ParseEnv} {ts rest : List Token} {w w' : CSISWriter}

theorem parseLine_line (h : parseLine env w ts = .ok (w', rest)) :
    (LineThen ts rest ∧ (current ts = .char '#' ∨ w'.header = w.header)) ∨
      (current ts = .EOF_TOKEN ∧ rest = ts ∧ w' = w) := by
  have htail {ts₁ : List Token} (hline : LineThen ts.tail ts₁) : LineThen ts ts₁ :=
    .of_suffix (List.tail_suffix ts) hline
  rw [parseLine.eq_def] at h
  split at h
  · next hlanguages =>
    obtain ⟨hline, hw⟩ := parseLanguagesL_line h
    rw [← current_eq hlanguages (by simp)] at hline
    exact .inl ⟨hline, .inr hw⟩
  · next hheader => exact .inl ⟨htail (parseHeaderL_line h), .inl hheader⟩
  · obtain ⟨⟨depend, ts₁⟩, h₁, h⟩ := bind_eq_ok.mp h
    cases h
    exact .inl ⟨htail (parseDependencyL_line h₁), .inr rfl⟩
  · obtain ⟨⟨depend, ts₁⟩, h₁, h⟩ := bind_eq_ok.mp h
    cases h
    exact .inl ⟨htail (parseDependencyL_line h₁), .inr rfl⟩
  · obtain ⟨ts₁, h₁, h⟩ := bind_eq_ok.mp h
    cases h
    exact .inl ⟨htail (parseSignatureL_line h₁), .inr rfl⟩
  · obtain ⟨hline, hw⟩ := parseLocalizedVendorNamesL_line h
    exact .inl ⟨htail hline, .inr hw⟩
  · obtain ⟨hline, hw⟩ := parseVendorNameL_line h
    exact .inl ⟨htail hline, .inr hw⟩
  · obtain ⟨hline, hw⟩ := parseLogoL_line h
    exact .inl ⟨htail hline, .inr hw⟩
  · next hend =>
    cases h
    exact .inr ⟨hend, rfl, rfl⟩
  · cases h

/-- Nothing behind the header changes what it has set. -/
theorem parseL_header {fIsStub enoughForStub : Bool} {n : ℕ} {final : CSISWriter}
    (hinit : w.AreLangStringInit = true) (h : ParseL env fIsStub n w enoughForStub ts = .ok final) :
    final.header = w.header := by
  induction n generalizing w enoughForStub ts with
  | zero => cases h
  | succ n ih =>
    rw [ParseL] at h
    split at h
    · cases h
      rfl
    · obtain ⟨⟨w₁, ts₁⟩, h₁, h⟩ := bind_eq_ok.mp h
      obtain ⟨⟨w₂, ts₂⟩, h₂, h⟩ := bind_eq_ok.mp h
      obtain ⟨-, hw₁⟩ := (blocksTake env _).block h₁
      have hinit₁ : w₁.AreLangStringInit = true := by
        have hbase : w₁.m_pLangStringBase = w.m_pLangStringBase := congrArg HeaderInfo.m_pLangStringBase hw₁
        rwa [CSISWriter.AreLangStringInit, hbase]
      have hw₂ : w₂.header = w₁.header := by
        rcases parseLine_line h₂ with ⟨-, hheader | hw₂⟩ | ⟨-, -, rfl⟩
        · rw [parseLine, hheader] at h₂
          simp only at h₂
          rw [ParseHeaderL, if_pos hinit₁] at h₂
          cases h₂
        · exact hw₂
        · rfl
      have hinit₂ : w₂.AreLangStringInit = true := by
        have hbase : w₂.m_pLangStringBase = w₁.m_pLangStringBase := congrArg HeaderInfo.m_pLangStringBase hw₂
        rwa [CSISWriter.AreLangStringInit, hbase]
      exact (ih hinit₂ h).trans (hw₂.trans hw₁)

end

end GnuPoc.Pkg
