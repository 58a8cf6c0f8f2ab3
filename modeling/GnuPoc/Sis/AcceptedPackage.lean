import GnuPoc.Sis.Nesting
import GnuPoc.Sis.NullFields

/-!
# GnuPoc.Sis.AcceptedPackage — the packages the parser accepts, in the generator

What the parser makes sure of is that the lines for the languages stand together (`Grouped`).  It does not ask
whether a line has a source, whether the strings of an option list are there for every language, or what is in
an embedded package; where one of these is missing, the generator comes upon `NULL`.
-/

namespace GnuPoc.Sis

open GnuPoc.Lib GnuPoc.Pkg

section
variable {penv : ParseEnv} {fIsStub : Bool} {m_tokenValue : List UInt32} {text : List UInt16} {w : CSISWriter}

theorem parseText_steps (h : parseText penv fIsStub m_tokenValue text = some w) :
    WriterSteps penv CSISWriter.empty w := by
  rw [parseText, parseTokens.eq_def] at h
  split at h
  · rcases hparse : ParseL penv fIsStub _ CSISWriter.empty false _ with e | w'
    · rw [hparse] at h
      cases h
    · rw [hparse] at h
      cases h
      exact parseL_steps hparse
  · split at h
    · rw [parseStub] at h
      split at h
      · next w' t t' ts hrest =>
        cases h
        have hparse := parseL_eq_parseRest penv true (((lexText m_tokenValue text).1.map Lexeme.token).length + 2)
          CSISWriter.empty false (((lexText m_tokenValue text).1.map Lexeme.token) ++ [unread])
        rw [hrest] at hparse
        exact parseL_steps hparse
      · cases h
    · cases h

/-- Without languages, no line depends on one. -/
theorem parseText_languageFile (h : parseText penv fIsStub m_tokenValue text = some w) (hlangs : languageCodes w = [])
    (f : PKGLINEFILE) : .languageFile f ∉ w.m_pPkgLineBase := by
  have hfit := LanguagesFit.empty.steps (parseText_steps h)
  have hempty : w.m_pLangBase = [] := by simpa [languageCodes] using hlangs
  have hcount : w.m_wNumLangs = 0 := by
    rw [hfit.count, hempty]
    rfl
  have hinit : w.AreLangStringInit = false := Bool.eq_false_iff.mpr fun hinit => hfit.header hinit hcount
  exact fun hmem => hfit.plain hinit _ hmem f rfl

end

/-- **`NULL` in the generator.**  In an accepted package, the generator meets `NULL` exactly where something that it
comes to lacks what is asked of it. -/
theorem parseText_generate {penv : ParseEnv} {fIsStub : Bool} {m_tokenValue : List UInt32} {text : List UInt16}
    {w : CSISWriter} (env : Env) (h : parseText penv fIsStub m_tokenValue text = some w) :
    GenerateSISFile env w fIsStub ≠ .error .nullField ↔ WellSupplied env fIsStub w :=
  generateSISFile_notNull_iff (parseText_languageFile h)

/-- **Accepted packages.**  Whatever the text, the language-dependent lines stand together, one for each language, and every
file, logo and language file was looked for where its kind has to exist. -/
theorem parseText_kept {penv : ParseEnv} {fIsStub : Bool} {m_tokenValue : List UInt32} {text : List UInt16} {w : CSISWriter}
    (h : parseText penv fIsStub m_tokenValue text = some w) : LanguagesFit w ∧ LinesKept penv w := by
  have hsteps := parseText_steps h
  refine ⟨LanguagesFit.empty.steps hsteps, ?_⟩
  clear h
  induction hsteps with
  | refl => exact ⟨by simp [CSISWriter.empty], by simp [CSISWriter.empty]⟩
  | tail _ hstep ih => exact ih.step hstep

/-! ### A file without a source -/

/-- `:"v"%{"v"}#{"n"},(1),1,2,3 ""-"c:\x"` -/
def noSourceText : List UInt16 :=
  [58, 34, 118, 34, 37, 123, 34, 118, 34, 125, 35, 123, 34, 110, 34, 125, 44, 40, 49, 41, 44, 49, 44, 50, 44, 51, 32,
    34, 34, 45, 34, 99, 58, 92, 120, 34]

/-- The writer of that file. -/
def noSourceWriter : CSISWriter :=
  (parseText ⟨some, fun _ => none⟩ false (List.replicate 255 0) noSourceText).getD CSISWriter.empty

theorem noSource_accepted :
    parseText ⟨some, fun _ => none⟩ false (List.replicate 255 0) noSourceText = some noSourceWriter := by
  have hsome : (parseText ⟨some, fun _ => none⟩ false (List.replicate 255 0) noSourceText).isSome = true := by
    decide +kernel
  obtain ⟨w, hw⟩ := Option.isSome_iff_exists.mp hsome
  rw [noSourceWriter, hw, Option.getD_some]

theorem noSource_kept : LanguagesFit noSourceWriter ∧ LinesKept ⟨some, fun _ => none⟩ noSourceWriter :=
  parseText_kept noSource_accepted

theorem noSource_generate :
    GenerateSISFile plainEnv noSourceWriter false ≠ .error .nullField ↔ WellSupplied plainEnv false noSourceWriter :=
  parseText_generate plainEnv noSource_accepted

/-- The parser accepts a line without a source, and the generator goes through `NULL` for it. -/
theorem noSource_null :
    parseText ⟨some, fun _ => none⟩ false (List.replicate 255 0) noSourceText = some noSourceWriter ∧
      GenerateSISFile plainEnv noSourceWriter false = .error .nullField := by
  refine ⟨noSource_accepted, ?_⟩
  decide +kernel

end GnuPoc.Sis
