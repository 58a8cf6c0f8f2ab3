import GnuPoc.Pkg.BodyShape
import Mathlib.Logic.Relation

/-!
# GnuPoc.Pkg.WriterSteps — what an accepted package file leaves in the `CSISWriter`

Every line adds to the writer in one of a few ways (`WriterStep`), each with what its parser function has made
sure of.  The writer of an accepted file is reached by such steps from the empty one (`parseL_steps`).
-/

namespace GnuPoc.Pkg

open GnuPoc.Lib Relation

/-! ### Steps -/

/-- What `ParseFileL` and `ParsePackageL` make sure of. -/
inductive FileKept (env : ParseEnv) : PKGLINEFILE → Prop
  | null (f : PKGLINEFILE) (htype : f.type = .EInstFileTypeNull) (hsource : f.pszSource = []) : FileKept env f
  | file (f : PKGLINEFILE) (hnull : f.type ≠ .EInstFileTypeNull) (hcomponent : f.type ≠ .EInstFileTypeComponent)
    (hsource : f.pszSource = [] ∨ ∃ name, env.DoesExist name = some f.pszSource) : FileKept env f
  | component (f : PKGLINEFILE) (htype : f.type = .EInstFileTypeComponent) (hsource : 4 ≤ f.pszSource.length) :
    FileKept env f

/-- What `ParseLanguageBlockL` makes sure of. -/
structure LanguageKept (env : ParseEnv) (f : PKGLINEFILE) : Prop where
  type : f.type ≠ .EInstFileTypeNull
  source : ∃ name, env.DoesExist name = some f.pszSource

inductive WriterStep (env : ParseEnv) (w : CSISWriter) : CSISWriter → Prop
  | languages (codes : List UInt16) (h : w.m_wNumLangs = 0) (hne : codes ≠ []) :
    WriterStep env w (codes.foldl CSISWriter.AddLanguageNode w)
  | header (names : List WStr) (dwUID : UInt32) (wMajor wMinor : UInt16) (dwBuild wType : UInt32) (wFlags : UInt16)
    (h : w.AreLangStringInit = false) (hlangs : w.m_wNumLangs ≠ 0) (hnames : names.length = w.m_wNumLangs.toNat) :
    WriterStep env w
      ({ w with m_pLangStringBase := names }.SetVersionInfo dwUID wMajor wMinor dwBuild wType wFlags)
  | vendorNames (names : List WStr) : WriterStep env w { w with m_pLocalizedVendorBase := names }
  | vendor (name : WStr) : WriterStep env w (w.AddVendorNode name)
  | logo (l : LOGO) (h : ∃ name, env.DoesExist name = some l.pszSource) : WriterStep env w (w.AddLogo l)
  | dependency (d : DEPENDNODE) : WriterStep env w (w.AddDependencyNode d)
  | platformDependency (d : DEPENDNODE) : WriterStep env w (w.AddPlatformDependencyNode d)
  | capability (c : CAPABILITYNODE) : WriterStep env w (w.AddCapabilityNode c)
  | condition (node : PKGLINENODE) (h : node = .condElse ∨ node = .condEndIf ∨
      ∃ cond, node = .condIf cond ∨ node = .condElseIf cond) : WriterStep env w (w.AddPkgLineNode node)
  | option (o : PKGLINEOPTIONS) (h : o.pLangStringBase.length = o.dwNumOptions * w.m_wNumLangs.toNat) :
    WriterStep env w (w.AddPkgLineNode (.option o))
  | file (f : PKGLINEFILE) (h : w.AreLangStringInit = true) (hfile : FileKept env f) :
    WriterStep env w (w.AddPkgLineNode (.file f))
  | languageFiles (fs : List PKGLINEFILE) (h : w.AreLangStringInit = true)
    (hlen : fs.length = w.m_wNumLangs.toNat) (hfs : ∀ f ∈ fs, LanguageKept env f) :
    WriterStep env w { w with m_pPkgLineBase := fs.map .languageFile ++ w.m_pPkgLineBase }

abbrev WriterSteps (env : ParseEnv) : CSISWriter → CSISWriter → Prop := ReflTransGen (WriterStep env)

section
variable {env : ParseEnv} {ts rest : List Token} {w w' : CSISWriter}

theorem WriterStep.steps (h : WriterStep env w w') : WriterSteps env w w' := .single h

theorem WriterStep.steps_of_eq {w₁ : CSISWriter} (h : WriterStep env w w₁) (heq : w' = w₁) :
    WriterSteps env w w' := by
  rw [heq]
  exact h.steps

/-! ### Lines outside the body -/

theorem checkHeader_eq_ok {u : Unit} (h : checkHeader w = .ok u) : w.AreLangStringInit = true := by
  rw [checkHeader] at h
  split at h
  · assumption
  · cases h

theorem langStrings_length {n : ℕ} {base base' : List WStr} (h : langStrings n base ts = .ok (base', rest)) :
    base'.length = base.length + n := by
  induction n generalizing base ts with
  | zero =>
    cases h
    rfl
  | succ n ih =>
    obtain ⟨⟨s, ts₁⟩, -, h⟩ := bind_eq_ok.mp h
    dsimp only at h
    split at h
    · next hn =>
      cases h
      rw [hn]
      rfl
    · obtain ⟨ts₂, -, h⟩ := bind_eq_ok.mp h
      have := ih h
      rw [List.length_cons] at this
      omega

theorem namesBlock_length {base base' : List WStr} (h : namesBlock w base ts = .ok (base', rest)) :
    base'.length = base.length + w.m_wNumLangs.toNat := by
  obtain ⟨ts₁, -, h⟩ := bind_eq_ok.mp h
  obtain ⟨⟨base₁, ts₂⟩, hstrings, h⟩ := bind_eq_ok.mp h
  obtain ⟨ts₃, -, h⟩ := bind_eq_ok.mp h
  cases h
  exact langStrings_length hstrings

theorem languagesLoop_eq_ok {n : ℕ} (h : languagesLoop n w ts = .ok (w', rest)) :
    ∃ codes, codes ≠ [] ∧ w' = codes.foldl CSISWriter.AddLanguageNode w := by
  induction n generalizing w ts with
  | zero => cases h
  | succ n ih =>
    obtain ⟨⟨wLang, ts₁⟩, -, h⟩ := bind_eq_ok.mp h
    obtain ⟨⟨wLang', ts₂⟩, -, h⟩ := bind_eq_ok.mp h
    dsimp only at h
    split at h
    · obtain ⟨codes, -, hw⟩ := ih h
      exact ⟨wLang' :: codes, List.cons_ne_nil _ _, hw⟩
    · cases h
      exact ⟨[wLang'], List.cons_ne_nil _ _, rfl⟩

theorem parseLanguagesL_steps (h : ParseLanguagesL w ts = .ok (w', rest)) : WriterSteps env w w' := by
  rw [ParseLanguagesL] at h
  split at h
  · cases h
  · next hzero =>
    obtain ⟨codes, hne, hw⟩ := languagesLoop_eq_ok h
    exact (WriterStep.languages codes (by simpa using hzero) hne).steps_of_eq hw

theorem assumeEnglish_steps (w : CSISWriter) : WriterSteps env w (assumeEnglish w) ∧
    (assumeEnglish w).m_wNumLangs ≠ 0 ∧ (assumeEnglish w).m_pLangStringBase = w.m_pLangStringBase := by
  rw [assumeEnglish]
  split
  · next hzero =>
    refine ⟨(WriterStep.languages [1] hzero (List.cons_ne_nil _ _)).steps, ?_, rfl⟩
    rw [CSISWriter.AddLanguageNode]
    simp [hzero]
  · next hne => exact ⟨.refl, hne, rfl⟩

theorem parseHeaderL_steps (h : ParseHeaderL w ts = .ok (w', rest)) : WriterSteps env w w' := by
  rw [ParseHeaderL] at h
  split at h
  · cases h
  · next hnot =>
    obtain ⟨hsteps, hlangs, hbase⟩ := @assumeEnglish_steps env w
    obtain ⟨⟨names, ts₀⟩, hnames, h⟩ := bind_eq_ok.mp h
    obtain ⟨ts₁, -, h⟩ := bind_eq_ok.mp h
    obtain ⟨ts₂, -, h⟩ := bind_eq_ok.mp h
    obtain ⟨⟨uid, ts₃⟩, -, h⟩ := bind_eq_ok.mp h
    obtain ⟨ts₄, -, h⟩ := bind_eq_ok.mp h
    obtain ⟨ts₅, -, h⟩ := bind_eq_ok.mp h
    obtain ⟨⟨major, ts₆⟩, -, h⟩ := bind_eq_ok.mp h
    obtain ⟨ts₇, -, h⟩ := bind_eq_ok.mp h
    obtain ⟨⟨minor, ts₈⟩, -, h⟩ := bind_eq_ok.mp h
    obtain ⟨ts₉, -, h⟩ := bind_eq_ok.mp h
    obtain ⟨⟨build, options⟩, -, h⟩ := bind_eq_ok.mp h
    obtain ⟨⟨dwType, dwFlags, rest'⟩, -, h⟩ := bind_eq_ok.mp h
    cases h
    have hinit : (assumeEnglish w).AreLangStringInit = false := by
      rw [CSISWriter.AreLangStringInit, hbase]
      simpa [CSISWriter.AreLangStringInit] using hnot
    have hnil : (assumeEnglish w).m_pLangStringBase = [] := by
      simpa [CSISWriter.AreLangStringInit] using hinit
    have hlen := namesBlock_length hnames
    rw [hnil, List.length_nil, Nat.zero_add] at hlen
    exact hsteps.tail (.header names _ _ _ _ _ _ hinit hlangs hlen)

theorem parseLocalizedVendorNamesL_steps (h : ParseLocalizedVendorNamesL w ts = .ok (w', rest)) :
    WriterSteps env w w' := by
  rw [ParseLocalizedVendorNamesL] at h
  split at h
  · cases h
  · obtain ⟨⟨names, ts₁⟩, -, h⟩ := bind_eq_ok.mp h
    cases h
    exact (assumeEnglish_steps w).1.tail (.vendorNames names)

theorem parseVendorNameL_steps (h : ParseVendorNameL w ts = .ok (w', rest)) : WriterSteps env w w' := by
  rw [ParseVendorNameL] at h
  split at h
  · cases h
  · obtain ⟨⟨name, ts₁⟩, -, h⟩ := bind_eq_ok.mp h
    cases h
    exact (WriterStep.vendor name).steps

theorem findFile_eq_ok {name found : WStr} (h : findFile env name = .ok found) :
    env.DoesExist name = some found := by
  rw [findFile] at h
  split at h
  · next hfound =>
    cases h
    exact hfound
  · cases h

theorem parseLogoL_steps (h : ParseLogoL env w ts = .ok (w', rest)) : WriterSteps env w w' := by
  obtain ⟨⟨name, ts₁⟩, -, h⟩ := bind_eq_ok.mp h
  obtain ⟨source, hsource, h⟩ := bind_eq_ok.mp h
  obtain ⟨ts₂, -, h⟩ := bind_eq_ok.mp h
  obtain ⟨⟨mime, ts₃⟩, -, h⟩ := bind_eq_ok.mp h
  obtain ⟨ts₄, -, h⟩ := bind_eq_ok.mp h
  obtain ⟨⟨dest, ts₅⟩, -, h⟩ := bind_eq_ok.mp h
  cases h
  exact (WriterStep.logo _ ⟨name, findFile_eq_ok hsource⟩).steps

/-! ### Lines of the body -/

theorem expectOption_mem {α : Type} {options : List (String × α)} {v : α}
    (h : expectOption options ts = .ok (v, rest)) : ∃ name, (name, v) ∈ options := by
  rw [expectOption.eq_def] at h
  split at h
  · next s rest' =>
    obtain ⟨v', hv, h⟩ := bind_eq_ok.mp h
    cases h
    rw [ParseOption, findOption] at hv
    rcases hfind : options.find? fun o => wcsicmp s (wstr o.1) with - | o
    · rw [hfind] at hv
      cases hv
    · rw [hfind] at hv
      cases hv
      exact ⟨o.1, List.mem_of_find?_eq_some hfind⟩
  · cases h

theorem expectType_ne_component {type : TInstFileType} (h : expectOption KTypeOptions ts = .ok (type, rest)) :
    type ≠ .EInstFileTypeComponent := by
  obtain ⟨name, hmem⟩ := expectOption_mem h
  rintro rfl
  simp [KTypeOptions] at hmem

theorem fileTypeL_kept {pszSource pszDest : WStr} {f : PKGLINEFILE}
    (hsource : pszSource = [] ∨ ∃ name, env.DoesExist name = some pszSource)
    (h : fileTypeL pszSource pszDest ts = .ok (f, rest)) : FileKept env f := by
  rw [fileTypeL.eq_def] at h
  split at h
  · obtain ⟨⟨type, ts₁⟩, htype, h⟩ := bind_eq_ok.mp h
    obtain ⟨⟨mime, options, ts₂⟩, -, h⟩ := bind_eq_ok.mp h
    cases h
    by_cases hnull : type = .EInstFileTypeNull
    · exact .null _ hnull (if_pos hnull)
    · refine .file _ hnull (expectType_ne_component htype) ?_
      dsimp only
      rwa [if_neg hnull]
  · cases h
    exact .file _ (by intro h; cases h) (by intro h; cases h) hsource

theorem parseFileL_steps (h : ParseFileL env w ts = .ok (w', rest)) : WriterSteps env w w' := by
  obtain ⟨_, hheader, h⟩ := bind_eq_ok.mp h
  obtain ⟨⟨name, ts₁⟩, -, h⟩ := bind_eq_ok.mp h
  obtain ⟨source, hsource, h⟩ := bind_eq_ok.mp h
  obtain ⟨ts₂, -, h⟩ := bind_eq_ok.mp h
  obtain ⟨⟨dest, ts₃⟩, -, h⟩ := bind_eq_ok.mp h
  dsimp only at h
  split at h
  · cases h
  · obtain ⟨⟨file, ts₄⟩, hfile, h⟩ := bind_eq_ok.mp h
    cases h
    have hfound : source = [] ∨ ∃ name, env.DoesExist name = some source := by
      rw [fileSource] at hsource
      split at hsource
      · cases hsource
        exact .inl rfl
      · exact .inr ⟨name, findFile_eq_ok hsource⟩
    exact (WriterStep.file file (checkHeader_eq_ok hheader) (fileTypeL_kept hfound hfile)).steps

theorem checkSuffix_length {pszSource : WStr} {u : Unit} (h : checkSuffix pszSource = .ok u) :
    4 ≤ pszSource.length := by
  rw [checkSuffix] at h
  split at h
  · cases h
  · omega

theorem parsePackageL_steps (h : ParsePackageL env w ts = .ok (w', rest)) : WriterSteps env w w' := by
  obtain ⟨_, hheader, h⟩ := bind_eq_ok.mp h
  obtain ⟨⟨name, ts₁⟩, -, h⟩ := bind_eq_ok.mp h
  obtain ⟨source, -, h⟩ := bind_eq_ok.mp h
  obtain ⟨⟨uid, ts₂⟩, -, h⟩ := bind_eq_ok.mp h
  obtain ⟨_, hembedded, h⟩ := bind_eq_ok.mp h
  cases h
  have hlen : 4 ≤ source.length := by
    rw [checkEmbedded] at hembedded
    split at hembedded
    · cases hembedded
    · obtain ⟨_, -, hembedded⟩ := bind_eq_ok.mp hembedded
      split at hembedded
      · cases hembedded
      · exact checkSuffix_length hembedded
  exact (WriterStep.file _ (checkHeader_eq_ok hheader) (.component _ rfl hlen)).steps

theorem optionsLoop_length {numLangs n : ℕ} {option option' : PKGLINEOPTIONS}
    (hlen : option.pLangStringBase.length = option.dwNumOptions * numLangs)
    (h : optionsLoop numLangs n option ts = .ok (option', rest)) :
    option'.pLangStringBase.length = option'.dwNumOptions * numLangs := by
  induction n generalizing option ts with
  | zero => cases h
  | succ n ih =>
    obtain ⟨ts₁, -, h⟩ := bind_eq_ok.mp h
    obtain ⟨⟨base, ts₂⟩, hbase, h⟩ := bind_eq_ok.mp h
    obtain ⟨ts₃, -, h⟩ := bind_eq_ok.mp h
    have hnext : base.length = (option.dwNumOptions + 1) * numLangs := by
      rw [langStrings_length hbase, hlen, Nat.succ_mul]
    dsimp only at h
    split at h
    · exact ih hnext h
    · cases h
      exact hnext

theorem parseOptionsBlockL_steps (h : ParseOptionsBlockL w ts = .ok (w', rest)) : WriterSteps env w w' := by
  obtain ⟨ts₁, -, h⟩ := bind_eq_ok.mp h
  obtain ⟨⟨option, ts₂⟩, hloop, h⟩ := bind_eq_ok.mp h
  obtain ⟨ts₃, -, h⟩ := bind_eq_ok.mp h
  cases h
  exact (WriterStep.option option (optionsLoop_length (by simp) hloop)).steps

theorem languageSources_eq_ok {packages : Bool} {n : ℕ} (h : languageSources env packages n w ts = .ok (w', rest)) :
    ∃ fs : List PKGLINEFILE, fs.length = n ∧
      w' = { w with m_pPkgLineBase := fs.map .languageFile ++ w.m_pPkgLineBase } ∧
      ∀ f ∈ fs, ∃ name, env.DoesExist name = some f.pszSource := by
  induction n generalizing w ts with
  | zero =>
    cases h
    exact ⟨[], rfl, rfl, by simp⟩
  | succ n ih =>
    have hsplit : ∃ ts₁ f, (∃ name, env.DoesExist name = some f.pszSource) ∧
        languageSources env packages n (w.AddPkgLineNode (.languageFile f)) ts₁ = .ok (w', rest) := by
      rcases packages with - | -
      · rw [languageSources, if_neg (by simp), pres_ok_bind] at h
        obtain ⟨⟨name, ts₁⟩, -, h⟩ := bind_eq_ok.mp h
        obtain ⟨source, hsource, h⟩ := bind_eq_ok.mp h
        exact ⟨ts₁, _, ⟨name, findFile_eq_ok hsource⟩, h⟩
      · rw [languageSources, if_pos rfl] at h
        obtain ⟨ts₀, -, h⟩ := bind_eq_ok.mp h
        obtain ⟨⟨name, ts₁⟩, -, h⟩ := bind_eq_ok.mp h
        obtain ⟨source, hsource, h⟩ := bind_eq_ok.mp h
        exact ⟨ts₁, _, ⟨name, findFile_eq_ok hsource⟩, h⟩
    obtain ⟨ts₁, f, hf, h⟩ := hsplit
    obtain ⟨fs, hlen, rfl, hfs⟩ := ih h
    refine ⟨fs ++ [f], by simp [hlen], by simp [CSISWriter.AddPkgLineNode], ?_⟩
    intro f' hf'
    rcases List.mem_append.mp hf' with hf' | hf'
    · exact hfs f' hf'
    · rwa [List.mem_singleton.mp hf']

theorem exists_languageFiles {fs : List PKGLINEFILE} {node : PKGLINEFILE → PKGLINENODE} {P : PKGLINEFILE → Prop}
    (h : ∀ f ∈ fs, ∃ f', node f = .languageFile f' ∧ P f') :
    ∃ fs' : List PKGLINEFILE, fs.map node = fs'.map .languageFile ∧ fs'.length = fs.length ∧ ∀ f ∈ fs', P f := by
  induction fs with
  | nil => exact ⟨[], rfl, rfl, by simp⟩
  | cons f fs ih =>
    obtain ⟨f', hnode, hf'⟩ := h f List.mem_cons_self
    obtain ⟨fs', hmap, hlen, hfs'⟩ := ih fun f₁ hf₁ => h f₁ (List.mem_cons_of_mem _ hf₁)
    refine ⟨f' :: fs', by rw [List.map_cons, List.map_cons, hnode, hmap], by simp [hlen], ?_⟩
    intro f₁ hf₁
    rcases List.mem_cons.mp hf₁ with rfl | hf₁
    · exact hf'
    · exact hfs' f₁ hf₁

theorem patchLanguages_steps {fs : List PKGLINEFILE} {patch : PKGLINENODE → PKGLINENODE}
    (hinit : w.AreLangStringInit = true) (hlen : fs.length = w.m_wNumLangs.toNat)
    (hpatch : ∀ f ∈ fs, ∃ f', patch (.languageFile f) = .languageFile f' ∧ LanguageKept env f')
    (h : w' = { w with m_pPkgLineBase :=
      ((fs.map PKGLINENODE.languageFile ++ w.m_pPkgLineBase).take w.m_wNumLangs.toNat).map patch ++
        (fs.map PKGLINENODE.languageFile ++ w.m_pPkgLineBase).drop w.m_wNumLangs.toNat }) : WriterSteps env w w' := by
  obtain ⟨fs', hmap, hlen', hfs'⟩ := @exists_languageFiles fs (fun f => patch (.languageFile f)) _ hpatch
  have htake : (fs.map PKGLINENODE.languageFile ++ w.m_pPkgLineBase).take w.m_wNumLangs.toNat =
      fs.map .languageFile := List.take_left' (by rw [List.length_map, hlen])
  have hdrop : (fs.map PKGLINENODE.languageFile ++ w.m_pPkgLineBase).drop w.m_wNumLangs.toNat =
      w.m_pPkgLineBase := List.drop_left' (by rw [List.length_map, hlen])
  rw [htake, hdrop, List.map_map, show (patch ∘ PKGLINENODE.languageFile) = fun f => patch (.languageFile f) from rfl,
    hmap] at h
  exact (WriterStep.languageFiles fs' hinit (hlen'.trans hlen) hfs').steps_of_eq h

theorem languageTypeL_ne_null {type : TInstFileType} {mime : WStr} {options : UInt32}
    (h : languageTypeL ts = .ok (type, mime, options, rest)) : type ≠ .EInstFileTypeNull := by
  rw [languageTypeL.eq_def] at h
  split at h
  · obtain ⟨⟨type', ts₁⟩, -, h⟩ := bind_eq_ok.mp h
    dsimp only at h
    split at h
    · cases h
    · next hne =>
      obtain ⟨⟨mime', options', ts₂⟩, -, h⟩ := bind_eq_ok.mp h
      cases h
      exact hne
  · cases h
    intro h
    cases h

theorem setFileDestination_kept {f : PKGLINEFILE} {pszDest pszMimeType : WStr} {dwType : TInstFileType}
    {dwOptions : UInt32} (hsource : ∃ name, env.DoesExist name = some f.pszSource)
    (htype : dwType ≠ .EInstFileTypeNull) : ∃ f', PKGLINENODE.setFileDestination pszDest pszMimeType dwType dwOptions
      (.languageFile f) = .languageFile f' ∧ LanguageKept env f' := by
  rcases dwType with - | - | - | - | - | -
  all_goals exact ⟨_, rfl, htype, hsource⟩

theorem setCompDestination_kept {f : PKGLINEFILE} {dwUID : UInt32}
    (hsource : ∃ name, env.DoesExist name = some f.pszSource) : ∃ f',
      PKGLINENODE.setCompDestination dwUID (.languageFile f) = .languageFile f' ∧ LanguageKept env f' :=
  ⟨{ f with type := .EInstFileTypeComponent, options := dwUID }, rfl, ⟨(by intro h; cases h), hsource⟩⟩

theorem parseLanguageBlockL_steps (h : ParseLanguageBlockL env w ts = .ok (w', rest)) : WriterSteps env w w' := by
  obtain ⟨_, hheader, h⟩ := bind_eq_ok.mp h
  obtain ⟨⟨w₁, ts₁⟩, hsources, h⟩ := bind_eq_ok.mp h
  obtain ⟨ts₂, -, h⟩ := bind_eq_ok.mp h
  obtain ⟨fs, hlen, rfl, hfs⟩ := languageSources_eq_ok hsources
  have hinit := checkHeader_eq_ok hheader
  split at h
  · obtain ⟨⟨uid, ts₃⟩, -, h⟩ := bind_eq_ok.mp h
    cases h
    exact patchLanguages_steps hinit hlen (fun f hf => setCompDestination_kept (hfs f hf)) rfl
  · obtain ⟨ts₃, -, h⟩ := bind_eq_ok.mp h
    obtain ⟨⟨dest, ts₄⟩, -, h⟩ := bind_eq_ok.mp h
    obtain ⟨⟨type, mime, options, ts₅⟩, htype, h⟩ := bind_eq_ok.mp h
    cases h
    refine patchLanguages_steps hinit hlen (fun f hf => ?_) rfl
    exact setFileDestination_kept (hfs f hf) (languageTypeL_ne_null htype)

theorem capabilityLoop_steps {n : ℕ} (h : capabilityLoop n w ts = .ok (w', rest)) : WriterSteps env w w' := by
  induction n generalizing w ts with
  | zero => cases h
  | succ n ih =>
    obtain ⟨⟨key, ts₁⟩, -, h⟩ := bind_eq_ok.mp h
    obtain ⟨ts₂, -, h⟩ := bind_eq_ok.mp h
    obtain ⟨⟨value, ts₃⟩, -, h⟩ := bind_eq_ok.mp h
    have hstep : WriterStep env w (w.AddCapabilityNode ⟨key.toUInt32, value.toUInt32⟩) := .capability _
    dsimp only at h
    split at h
    · exact .head hstep (ih h)
    · cases h
      exact hstep.steps

theorem parseCapabilityL_steps (h : ParseCapabilityL w ts = .ok (w', rest)) : WriterSteps env w w' := by
  obtain ⟨_, -, h⟩ := bind_eq_ok.mp h
  obtain ⟨ts₁, -, h⟩ := bind_eq_ok.mp h
  obtain ⟨⟨w₁, ts₂⟩, hloop, h⟩ := bind_eq_ok.mp h
  obtain ⟨ts₃, -, h⟩ := bind_eq_ok.mp h
  cases h
  exact capabilityLoop_steps hloop

theorem parseConditionL_steps {node : PKGLINECONDITION → PKGLINENODE}
    (hnode : ∀ cond, node cond = .condIf cond ∨ node cond = .condElseIf cond)
    (h : ParseConditionL node w ts = .ok (w', rest)) : WriterSteps env w w' := by
  obtain ⟨⟨cond, ts₁⟩, -, h⟩ := bind_eq_ok.mp h
  cases h
  exact (WriterStep.condition _ (.inr (.inr ⟨cond, hnode cond⟩))).steps

end

/-! ### Blocks -/

/-- What the functions for blocks of this fuel leave. -/
structure BlocksLeave (env : ParseEnv) (n : ℕ) : Prop where
  block : ∀ {w ts w' rest}, ParseEmbeddedBlockL env n w ts = .ok (w', rest) → WriterSteps env w w'
  ifBlock : ∀ {w ts w' rest}, ParseIfBlockL env n w ts = .ok (w', rest) → WriterSteps env w w'
  elseIfs : ∀ {w ts w' rest}, elseIfLoop env n w ts = .ok (w', rest) → WriterSteps env w w'

section
variable {env : ParseEnv} {n : ℕ} {ts rest : List Token} {w w' : CSISWriter}

theorem parseEmbeddedBlockL_steps (ih : BlocksLeave env n)
    (h : ParseEmbeddedBlockL env (n + 1) w ts = .ok (w', rest)) : WriterSteps env w w' := by
  rw [ParseEmbeddedBlockL.eq_def] at h
  dsimp only at h
  split at h
  · obtain ⟨⟨w₁, ts₁⟩, h₁, h⟩ := bind_eq_ok.mp h
    exact (parseFileL_steps h₁).trans (ih.block h)
  · obtain ⟨⟨w₁, ts₁⟩, h₁, h⟩ := bind_eq_ok.mp h
    exact (parsePackageL_steps h₁).trans (ih.block h)
  · obtain ⟨⟨w₁, ts₁⟩, h₁, h⟩ := bind_eq_ok.mp h
    exact (parseOptionsBlockL_steps h₁).trans (ih.block h)
  · obtain ⟨⟨w₁, ts₁⟩, h₁, h⟩ := bind_eq_ok.mp h
    exact (parseLanguageBlockL_steps h₁).trans (ih.block h)
  · obtain ⟨⟨w₁, ts₁⟩, h₁, h⟩ := bind_eq_ok.mp h
    exact (parseCapabilityL_steps h₁).trans (ih.block h)
  · obtain ⟨⟨w₁, ts₁⟩, h₁, h⟩ := bind_eq_ok.mp h
    exact (ih.ifBlock h₁).trans (ih.block h)
  · exact ih.block h
  · cases h
    exact .refl

theorem parseIfBlockL_steps (ih : BlocksLeave env n) (h : ParseIfBlockL env (n + 1) w ts = .ok (w', rest)) :
    WriterSteps env w w' := by
  rw [ParseIfBlockL.eq_def] at h
  dsimp only at h
  obtain ⟨⟨w₁, ts₁⟩, h₁, h⟩ := bind_eq_ok.mp h
  obtain ⟨⟨w₂, ts₂⟩, h₂, h⟩ := bind_eq_ok.mp h
  exact ((parseConditionL_steps (fun _ => .inl rfl) h₁).trans (ih.block h₂)).trans (ih.elseIfs h)

theorem elseIfLoop_steps (ih : BlocksLeave env n) (h : elseIfLoop env (n + 1) w ts = .ok (w', rest)) :
    WriterSteps env w w' := by
  have hend (w : CSISWriter) : WriterStep env w (w.AddPkgLineNode .condEndIf) := .condition _ (.inr (.inl rfl))
  rw [elseIfLoop.eq_def] at h
  dsimp only at h
  split at h
  · obtain ⟨⟨w₁, ts₁⟩, h₁, h⟩ := bind_eq_ok.mp h
    obtain ⟨⟨w₂, ts₂⟩, h₂, h⟩ := bind_eq_ok.mp h
    exact ((parseConditionL_steps (fun _ => .inr rfl) h₁).trans (ih.block h₂)).trans (ih.elseIfs h)
  · obtain ⟨⟨w₁, ts₁⟩, h₁, h⟩ := bind_eq_ok.mp h
    obtain ⟨ts₂, -, h⟩ := bind_eq_ok.mp h
    cases h
    have helse : WriterStep env w (w.AddPkgLineNode .condElse) := .condition _ (.inl rfl)
    exact (ReflTransGen.head helse (ih.block h₁)).tail (hend w₁)
  · obtain ⟨ts₁, -, h⟩ := bind_eq_ok.mp h
    cases h
    exact (hend w).steps

theorem blocksLeave (env : ParseEnv) (n : ℕ) : BlocksLeave env n := by
  induction n with
  | zero =>
    constructor
    · intro w ts w' rest h
      cases h
    · intro w ts w' rest h
      cases h
    · intro w ts w' rest h
      cases h
  | succ n ih => exact ⟨parseEmbeddedBlockL_steps ih, parseIfBlockL_steps ih, elseIfLoop_steps ih⟩

/-! ### The file -/

theorem parseLine_steps (h : parseLine env w ts = .ok (w', rest)) : WriterSteps env w w' := by
  rw [parseLine.eq_def] at h
  split at h
  · exact parseLanguagesL_steps h
  · exact parseHeaderL_steps h
  · obtain ⟨⟨depend, ts₁⟩, -, h⟩ := bind_eq_ok.mp h
    cases h
    exact (WriterStep.dependency depend).steps
  · obtain ⟨⟨depend, ts₁⟩, -, h⟩ := bind_eq_ok.mp h
    cases h
    exact (WriterStep.platformDependency depend).steps
  · obtain ⟨ts₁, -, h⟩ := bind_eq_ok.mp h
    cases h
    exact .refl
  · exact parseLocalizedVendorNamesL_steps h
  · exact parseVendorNameL_steps h
  · exact parseLogoL_steps h
  · cases h
    exact .refl
  · cases h

theorem parseL_steps {fIsStub enoughForStub : Bool} (h : ParseL env fIsStub n w enoughForStub ts = .ok w') :
    WriterSteps env w w' := by
  induction n generalizing w enoughForStub ts with
  | zero => cases h
  | succ n ih =>
    rw [ParseL] at h
    split at h
    · cases h
      exact .refl
    · obtain ⟨⟨w₁, ts₁⟩, h₁, h⟩ := bind_eq_ok.mp h
      obtain ⟨⟨w₂, ts₂⟩, h₂, h⟩ := bind_eq_ok.mp h
      exact (((blocksLeave env _).block h₁).trans (parseLine_steps h₂)).trans (ih h)

end

/-! ### The languages of the lines -/

/-- The files of a language-dependent line stand together, one for each of the `n` languages. -/
inductive Grouped (n : ℕ) : List PKGLINENODE → Prop
  | nil : Grouped n []
  | line {node : PKGLINENODE} {nodes : List PKGLINENODE} (hnode : ∀ f, node ≠ .languageFile f)
    (hrest : Grouped n nodes) : Grouped n (node :: nodes)
  | languages {fs : List PKGLINEFILE} {nodes : List PKGLINENODE} (hne : fs ≠ []) (hlen : fs.length = n)
    (hrest : Grouped n nodes) : Grouped n (fs.map .languageFile ++ nodes)

section
variable {n : ℕ} {nodes nodes' : List PKGLINENODE}

theorem Grouped.append (h : Grouped n nodes) (h' : Grouped n nodes') : Grouped n (nodes ++ nodes') := by
  induction h with
  | nil => exact h'
  | line hnode _ ih => exact .line hnode ih
  | languages hne hlen _ ih =>
    rw [List.append_assoc]
    exact .languages hne hlen ih

theorem Grouped.of_plain (h : ∀ node ∈ nodes, ∀ f, node ≠ .languageFile f) : Grouped n nodes := by
  induction nodes with
  | nil => exact .nil
  | cons node nodes ih =>
    exact .line (h node List.mem_cons_self) (ih fun node' hmem => h node' (List.mem_cons_of_mem _ hmem))

end

/-- What holds of the languages in every writer the parser reaches. -/
structure LanguagesFit (w : CSISWriter) : Prop where
  count : w.m_wNumLangs = UInt16.ofNat w.m_pLangBase.length
  header : w.AreLangStringInit = true → w.m_wNumLangs ≠ 0
  plain : w.AreLangStringInit = false → ∀ node ∈ w.m_pPkgLineBase, ∀ f, node ≠ .languageFile f
  grouped : w.AreLangStringInit = true → Grouped w.m_wNumLangs.toNat w.m_pPkgLineBase.reverse

section
variable {env : ParseEnv} {w w' : CSISWriter}

theorem addLanguages_eq (codes : List UInt16) (w : CSISWriter) : codes.foldl CSISWriter.AddLanguageNode w =
    { w with
      m_pLangBase := codes.reverse ++ w.m_pLangBase
      m_wNumLangs := w.m_wNumLangs + UInt16.ofNat codes.length } := by
  induction codes generalizing w with
  | nil => simp
  | cons code codes ih =>
    rw [List.foldl_cons, ih]
    simp [CSISWriter.AddLanguageNode, UInt16.add_assoc, UInt16.add_comm]

theorem LanguagesFit.empty : LanguagesFit CSISWriter.empty where
  count := rfl
  header := nofun
  plain := by simp [CSISWriter.empty]
  grouped := nofun

theorem LanguagesFit.addLine (h : LanguagesFit w) {node : PKGLINENODE} (hnode : ∀ f, node ≠ .languageFile f) :
    LanguagesFit (w.AddPkgLineNode node) where
  count := h.count
  header := h.header
  plain := by
    intro hinit node' hmem
    rcases List.mem_cons.mp hmem with rfl | hmem
    · exact hnode
    · exact h.plain hinit node' hmem
  grouped := by
    intro hinit
    change Grouped _ (node :: w.m_pPkgLineBase).reverse
    rw [List.reverse_cons]
    exact (h.grouped hinit).append (.line hnode .nil)

/-- Every step keeps the languages counted and their lines in groups. -/
theorem LanguagesFit.step (h : LanguagesFit w) (hstep : WriterStep env w w') : LanguagesFit w' := by
  cases hstep with
  | languages codes hzero hne =>
    have hinit : w.AreLangStringInit = false := by
      by_contra hinit
      exact h.header (by simpa using hinit) hzero
    rw [addLanguages_eq]
    refine ⟨?_, fun hinit' => ?_, fun _ => h.plain hinit, fun hinit' => ?_⟩
    · dsimp only
      rw [h.count, List.length_append, List.length_reverse, ← UInt16.ofNat_add, Nat.add_comm]
    · exact absurd (hinit.symm.trans hinit') (by simp)
    · exact absurd (hinit.symm.trans hinit') (by simp)
  | header names dwUID wMajor wMinor dwBuild wType wFlags hinit hlangs hnames =>
    refine ⟨h.count, fun _ => hlangs, fun hinit' => ?_, fun _ => ?_⟩
    · have hnil : names = [] := by simpa [CSISWriter.AreLangStringInit, CSISWriter.SetVersionInfo] using hinit'
      rw [hnil, List.length_nil] at hnames
      exact absurd (UInt16.toNat_inj.mp (by simpa using hnames.symm)) hlangs
    · refine .of_plain fun node hmem => h.plain hinit node ?_
      exact List.mem_reverse.mp hmem
  | vendorNames names => exact ⟨h.count, h.header, h.plain, h.grouped⟩
  | vendor name => exact ⟨h.count, h.header, h.plain, h.grouped⟩
  | logo l hl => exact ⟨h.count, h.header, h.plain, h.grouped⟩
  | dependency d => exact ⟨h.count, h.header, h.plain, h.grouped⟩
  | platformDependency d => exact ⟨h.count, h.header, h.plain, h.grouped⟩
  | capability c => exact ⟨h.count, h.header, h.plain, h.grouped⟩
  | condition node hnode =>
    refine h.addLine fun f => ?_
    rcases hnode with rfl | rfl | ⟨cond, rfl | rfl⟩
    all_goals
      intro h
      cases h
  | option o ho =>
    refine h.addLine fun f hf => ?_
    cases hf
  | file f hinit hf =>
    refine h.addLine fun f hf => ?_
    cases hf
  | languageFiles fs hinit hlen hfs =>
    refine ⟨h.count, h.header, fun hinit' => ?_, fun _ => ?_⟩
    · exact absurd (hinit.symm.trans hinit') (by simp)
    · change Grouped _ (fs.map PKGLINENODE.languageFile ++ w.m_pPkgLineBase).reverse
      rw [List.reverse_append, ← List.map_reverse]
      have hne : fs.reverse ≠ [] := by
        intro hnil
        rw [List.reverse_eq_nil_iff.mp hnil] at hlen
        exact h.header hinit (UInt16.toNat_inj.mp (by simpa using hlen.symm))
      have hgroup := @Grouped.languages w.m_wNumLangs.toNat fs.reverse [] hne (by rw [List.length_reverse, hlen]) .nil
      rw [List.append_nil] at hgroup
      exact (h.grouped hinit).append hgroup

theorem LanguagesFit.steps (h : LanguagesFit w) (hsteps : WriterSteps env w w') : LanguagesFit w' := by
  induction hsteps with
  | refl => exact h
  | tail _ hstep ih => exact ih.step hstep

/-- What the parser function of a line has made sure of. -/
def NodeKept (env : ParseEnv) : PKGLINENODE → Prop
  | .file f => FileKept env f
  | .languageFile f => LanguageKept env f
  | _ => True

/-- What holds of the lines and logos in every writer the parser reaches. -/
structure LinesKept (env : ParseEnv) (w : CSISWriter) : Prop where
  lines : ∀ node ∈ w.m_pPkgLineBase, NodeKept env node
  logos : ∀ l ∈ w.m_pLogoBase, ∃ name, env.DoesExist name = some l.pszSource

theorem LinesKept.addLine (h : LinesKept env w) {node : PKGLINENODE} (hnode : NodeKept env node) :
    LinesKept env (w.AddPkgLineNode node) := ⟨List.forall_mem_cons.mpr ⟨hnode, h.lines⟩, h.logos⟩

/-- Every step keeps what is known of lines and logos. -/
theorem LinesKept.step (h : LinesKept env w) (hstep : WriterStep env w w') : LinesKept env w' := by
  cases hstep with
  | languages codes hzero hne =>
    rw [addLanguages_eq]
    exact ⟨h.lines, h.logos⟩
  | header names dwUID wMajor wMinor dwBuild wType wFlags hinit hlangs hnames => exact ⟨h.lines, h.logos⟩
  | vendorNames names => exact ⟨h.lines, h.logos⟩
  | vendor name => exact ⟨h.lines, h.logos⟩
  | logo l hl => exact ⟨h.lines, List.forall_mem_cons.mpr ⟨hl, h.logos⟩⟩
  | dependency d => exact ⟨h.lines, h.logos⟩
  | platformDependency d => exact ⟨h.lines, h.logos⟩
  | capability c => exact ⟨h.lines, h.logos⟩
  | condition node hnode =>
    refine h.addLine ?_
    rcases hnode with rfl | rfl | ⟨cond, rfl | rfl⟩
    all_goals exact trivial
  | option o ho => exact h.addLine trivial
  | file f hinit hf => exact h.addLine hf
  | languageFiles fs hinit hlen hfs =>
    refine ⟨fun node hmem => ?_, h.logos⟩
    rcases List.mem_append.mp hmem with hmem | hmem
    · obtain ⟨f, hf, rfl⟩ := List.mem_map.mp hmem
      exact hfs f hf
    · exact h.lines node hmem

end

end GnuPoc.Pkg
