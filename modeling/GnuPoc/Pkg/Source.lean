import GnuPoc.Pkg.Condition

/-!
# GnuPoc.Pkg.Source — the body of a package file and its parser

The lines of a body with their tokens, the lines the generator sees instead, and the theorem that the
parser stores the nodes of the body's nesting.
-/

namespace GnuPoc.Pkg

/-- A name of the table, in any case. -/
structure Opt {α : Type} (options : List (String × α)) where
  name : WStr
  value : α
  known : findOption options name = some value

/-- The table of the options behind a type. -/
def furtherTable (type : TInstFileType) : List (String × UInt32) :=
  match furtherOptions (· ||| ·) type with
  | some (table, _) => table
  | none => []

namespace Source

/-- The type of a file as written, with what follows it; `pszMimeType` is written for `FILEMIME` only. -/
structure TypeSpec where
  type : Opt KTypeOptions
  pszMimeType : WStr
  options : List (Opt (furtherTable type.value))

/-- A line of a body. -/
inductive SrcLine
  | file (source dest : WStr) (type : Option TypeSpec)
  | package (source : WStr) (uid : UInt64)
  | options (strings : List (List WStr))
  | languageFiles (sources : List WStr) (dest : WStr) (type : Option TypeSpec)
  | languagePackages (sources : List WStr) (uid : UInt64)

/-! ### Tokens -/

def optionTokens {options : List (String × UInt32)} (os : List (Opt options)) : List Token :=
  os.flatMap fun o => [.char ',', .ALPHA_TOKEN o.name]

/-- What follows the name of the type. -/
def TypeSpec.behind (t : TypeSpec) : List Token :=
  (if t.type.value = .EInstFileTypeMime then [.char ',', .QUOTED_STRING_TOKEN t.pszMimeType] else []) ++
    optionTokens t.options

def typeTokens : Option TypeSpec → List Token
  | none => []
  | some t => .char ',' :: .ALPHA_TOKEN t.type.name :: t.behind

/-- Strings with commas between them. -/
def commaStrings : List WStr → List Token
  | [] => []
  | [s] => [.QUOTED_STRING_TOKEN s]
  | s :: ss => .QUOTED_STRING_TOKEN s :: .char ',' :: commaStrings ss

/-- The options of a list with commas between them. -/
def optionListTokens : List (List WStr) → List Token
  | [] => []
  | [o] => .char '{' :: (commaStrings o ++ [.char '}'])
  | o :: os => .char '{' :: (commaStrings o ++ (.char '}' :: .char ',' :: optionListTokens os))

def uidTokens (uid : UInt64) : List Token := [.char ',', .char '(', .NUMERIC_TOKEN uid, .char ')']

def SrcLine.tokens : SrcLine → List Token
  | file source dest type =>
    .QUOTED_STRING_TOKEN source :: .char '-' :: .QUOTED_STRING_TOKEN dest :: typeTokens type
  | package source uid => .char '@' :: .QUOTED_STRING_TOKEN source :: uidTokens uid
  | options strings => .char '!' :: .char '(' :: (optionListTokens strings ++ [.char ')'])
  | languageFiles sources dest type =>
    .char '{' :: (sources.map .QUOTED_STRING_TOKEN ++
      (.char '}' :: .char '-' :: .QUOTED_STRING_TOKEN dest :: typeTokens type))
  | languagePackages sources uid =>
    .char '{' :: (sources.flatMap (fun s => [.char '@', .QUOTED_STRING_TOKEN s]) ++
      (.char '}' :: uidTokens uid))

mutual
/-- The tokens of a body. -/
def blockTokens : Block SrcLine Expr → List Token
  | .nil => []
  | .cons item rest => itemTokens item ++ blockTokens rest
def itemTokens : Item SrcLine Expr → List Token
  | .line l => l.tokens
  | .ifBlock cond body tail => .IF_TOKEN :: (cond.tokens ++ (blockTokens body ++ tailTokens tail))
def tailTokens : Tail SrcLine Expr → List Token
  | .endIf => [.ENDIF_TOKEN]
  | .elseIf cond body tail => .ELSEIF_TOKEN :: (cond.tokens ++ (blockTokens body ++ tailTokens tail))
  | .els body => .ELSE_TOKEN :: (blockTokens body ++ [.ENDIF_TOKEN])
end

/-! ### Meaning -/

/-- The name a file is found under. -/
def foundAs (env : ParseEnv) (name : WStr) : WStr := (env.DoesExist name).getD []

/-- The type, the MIME type and the options a file is written with; without a type it is a simple one. -/
def typeValues (text : UInt32 → UInt32 → UInt32) : Option TypeSpec → TInstFileType × WStr × UInt32
  | none => (.EInstFileTypeSimple, [], 0)
  | some t =>
    let start : UInt32 := if t.type.value = .EInstFileTypeMime then
      EInstFileRunOptionByMimeType ||| EInstFileRunOptionInstall else 0
    let update := match furtherOptions text t.type.value with
      | some (_, update) => update
      | none => fun dwOptions _ => dwOptions
    (t.type.value, if t.type.value = .EInstFileTypeMime then t.pszMimeType else [],
      (t.options.map fun o => o.value).foldl update start)

/-- A text file with options has no destination. -/
def textOptionGiven : Option TypeSpec → Bool
  | none => false
  | some t => t.type.value = .EInstFileTypeText ∧ t.options ≠ []

/-- The file of a file line. -/
def fileValue (env : ParseEnv) (source dest : WStr) (type : Option TypeSpec) : PKGLINEFILE :=
  let (fileType, pszMimeType, dwOptions) := typeValues (fun _ options => options) type
  { type := fileType
    options := dwOptions
    pszSource := if source = [] ∨ fileType = .EInstFileTypeNull then [] else foundAs env source
    pszDest := if textOptionGiven type then [] else addDrive dest
    pszMimeType := pszMimeType }

/-- The line the generator sees. -/
def SrcLine.line (env : ParseEnv) : SrcLine → Line
  | file source dest type => .file (fileValue env source dest type)
  | package source uid =>
    .file ⟨.EInstFileTypeComponent, uid.toUInt32, foundAs env source, [], []⟩
  | options strings => .option ⟨strings.length, strings.flatten.reverse⟩
  | languageFiles sources dest type =>
    let (fileType, pszMimeType, dwOptions) := typeValues (· ||| ·) type
    .languageFiles (sources.map fun s => ⟨fileType, dwOptions, foundAs env s, dest, pszMimeType⟩)
  | languagePackages sources uid =>
    .languageFiles (sources.map fun s =>
      ⟨.EInstFileTypeComponent, uid.toUInt32, foundAs env s, [], []⟩)

mutual
/-- The nesting the generator is to see. -/
def blockLines (env : ParseEnv) : Block SrcLine Expr → Block Line PKGLINECONDITION
  | .nil => .nil
  | .cons item rest => .cons (itemLines env item) (blockLines env rest)
def itemLines (env : ParseEnv) : Item SrcLine Expr → Item Line PKGLINECONDITION
  | .line l => .line (l.line env)
  | .ifBlock cond body tail => .ifBlock cond.cond (blockLines env body) (tailLines env tail)
def tailLines (env : ParseEnv) : Tail SrcLine Expr → Tail Line PKGLINECONDITION
  | .endIf => .endIf
  | .elseIf cond body tail => .elseIf cond.cond (blockLines env body) (tailLines env tail)
  | .els body => .els (blockLines env body)
end

/-! ### Well-formed lines -/

def Exists (env : ParseEnv) (name : WStr) : Prop := (env.DoesExist name).isSome

/-- A line of a package file for `n` languages whose files are there. -/
def SrcLine.WellFormed (env : ParseEnv) (n : ℕ) : SrcLine → Prop
  | file source dest _ => (source ≠ [] → Exists env source) ∧ dest.head? ≠ some 58
  | package source uid =>
    Exists env source ∧ checkEmbedded env (foundAs env source) uid.toUInt32 = .ok ()
  | options strings => strings ≠ [] ∧ ∀ o ∈ strings, o.length = n
  | languageFiles sources _ type => sources.length = n ∧ (∀ s ∈ sources, Exists env s) ∧
    (typeValues (· ||| ·) type).1 ≠ .EInstFileTypeNull
  | languagePackages sources _ => sources.length = n ∧ ∀ s ∈ sources, Exists env s

end Source

/-- The writer with more nodes, in source order. -/
def CSISWriter.addLines (w : CSISWriter) (nodes : List PKGLINENODE) : CSISWriter :=
  { w with m_pPkgLineBase := nodes.reverse ++ w.m_pPkgLineBase }

theorem CSISWriter.addLines_append (w : CSISWriter) (nodes nodes' : List PKGLINENODE) :
    (w.addLines nodes).addLines nodes' = w.addLines (nodes ++ nodes') := by
  simp [addLines]

theorem CSISWriter.addPkgLineNode_eq (w : CSISWriter) (node : PKGLINENODE) :
    w.AddPkgLineNode node = w.addLines [node] := rfl

/-- What a package file must have said before its body: at least one language, fewer than the counter
can hold, and the header. -/
structure HeaderDone (w : CSISWriter) : Prop where
  header : w.AreLangStringInit = true
  languages : w.m_pLangBase ≠ []
  counted : w.m_wNumLangs.toNat = w.m_pLangBase.length

theorem HeaderDone.addLines {w : CSISWriter} (h : HeaderDone w) (nodes : List PKGLINENODE) :
    HeaderDone (w.addLines nodes) := ⟨h.header, h.languages, h.counted⟩

theorem HeaderDone.numLangs_ne_zero {w : CSISWriter} (h : HeaderDone w) : w.m_wNumLangs.toNat ≠ 0 := by
  rw [h.counted]
  exact Nat.ne_of_gt (List.length_pos_iff.mpr h.languages)

theorem HeaderDone.check {w : CSISWriter} (h : HeaderDone w) : checkHeader w = .ok () := by
  rw [checkHeader, h.header]
  rfl

/-! ### The parser on a line -/

namespace Source

/-- A token that starts no further part of a line or of a condition. -/
structure LineEnd (rest : List Token) : Prop where
  comma : current rest ≠ .char ','
  relation : relationOp (current rest) = none
  logical : logicalOp (current rest) = none

variable {rest : List Token}

theorem optionLoop_end (further : Option (List (String × UInt32) × (UInt32 → UInt32 → UInt32)))
    (dwOptions : UInt32) (h : current rest ≠ .char ',') :
    optionLoop further dwOptions rest = .ok (dwOptions, rest) := by
  rcases rest with _ | ⟨t, rest⟩
  · rw [optionLoop]
    intro ts hts
    cases hts
  · rw [optionLoop]
    rintro ts hts
    cases hts
    exact h rfl

theorem optionLoop_tokens (table : List (String × UInt32)) (update : UInt32 → UInt32 → UInt32) :
    ∀ (os : List (Opt table)) (dwOptions : UInt32) {rest : List Token}, current rest ≠ .char ',' →
    optionLoop (some (table, update)) dwOptions (optionTokens os ++ rest) =
      .ok ((os.map fun o => o.value).foldl update dwOptions, rest)
  | [], dwOptions, _, h => optionLoop_end _ dwOptions h
  | o :: os, dwOptions, rest, h => by
    show ParseOption table o.name >>= _ = _
    rw [parseOption_eq o.known]
    exact optionLoop_tokens table update os (update dwOptions o.value) h

theorem typeOptions_behind (text : UInt32 → UInt32 → UInt32) (t : TypeSpec) (h : current rest ≠ .char ',') :
    typeOptions text t.type.value (t.behind ++ rest) =
      .ok ((typeValues text (some t)).2.1, (typeValues text (some t)).2.2, rest) := by
  obtain ⟨⟨name, value, known⟩, mime, options⟩ := t
  have hnone : ∀ os : List (Opt ([] : List (String × UInt32))), os = [] := by
    rintro (_ | ⟨⟨_, _, hv⟩, _⟩)
    · rfl
    · cases hv
  rcases value with _ | _ | _ | _ | _ | _
  · cases hnone options
    show optionLoop none 0 rest >>= _ = _
    rw [optionLoop_end none 0 h]
    rfl
  · change List (Opt KTextOptions) at options
    show optionLoop (some (KTextOptions, text)) 0 (optionTokens options ++ rest) >>= _ = _
    rw [optionLoop_tokens KTextOptions text options 0 h]
    rfl
  · cases hnone options
    show optionLoop none 0 rest >>= _ = _
    rw [optionLoop_end none 0 h]
    rfl
  · change List (Opt KRunOptions) at options
    show optionLoop (some (KRunOptions, addRunOption)) 0 (optionTokens options ++ rest) >>= _ = _
    rw [optionLoop_tokens KRunOptions addRunOption options 0 h]
    rfl
  · cases hnone options
    show optionLoop none 0 rest >>= _ = _
    rw [optionLoop_end none 0 h]
    rfl
  · change List (Opt KRunOptions) at options
    show optionLoop (some (KRunOptions, addMimeOption))
      (EInstFileRunOptionByMimeType ||| EInstFileRunOptionInstall) (optionTokens options ++ rest) >>= _ = _
    rw [optionLoop_tokens KRunOptions addMimeOption options _ h]
    rfl

theorem findFile_foundAs {env : ParseEnv} {name : WStr} (h : Exists env name) :
    findFile env name = .ok (foundAs env name) := by
  obtain ⟨found, hfound⟩ := Option.isSome_iff_exists.mp h
  rw [findFile, foundAs, hfound]
  rfl

theorem textOptionGiven_iff (t : TypeSpec) (h : current rest ≠ .char ',') :
    textOptionGiven (some t) = true ↔
      t.type.value = .EInstFileTypeText ∧ current (t.behind ++ rest) = .char ',' := by
  obtain ⟨⟨name, value, known⟩, mime, options⟩ := t
  simp only [textOptionGiven, decide_eq_true_eq, and_congr_right_iff]
  rintro rfl
  rcases options with _ | ⟨o, os⟩
  · exact iff_of_false (fun hne => hne rfl) h
  · exact iff_of_true (List.cons_ne_nil _ _) rfl

theorem fileTypeL_cons (pszSource pszDest : WStr) (type : Opt KTypeOptions) (ts : List Token) :
    fileTypeL pszSource pszDest (.char ',' :: .ALPHA_TOKEN type.name :: ts) =
      typeOptions (fun _ options => options) type.value ts >>= fun x =>
        .ok (⟨type.value, x.2.1, if type.value = .EInstFileTypeNull then [] else pszSource,
          if type.value = .EInstFileTypeText ∧ current ts = .char ',' then [] else pszDest, x.1⟩,
          x.2.2) := by
  show (ParseOption KTypeOptions type.name >>= _) >>= _ = _
  rw [parseOption_eq type.known]
  rfl

theorem fileTypeL_tokens (pszSource pszDest : WStr) (type : Option TypeSpec) (h : current rest ≠ .char ',') :
    fileTypeL pszSource pszDest (typeTokens type ++ rest) =
      .ok (⟨(typeValues (fun _ options => options) type).1,
        (typeValues (fun _ options => options) type).2.2,
        if (typeValues (fun _ options => options) type).1 = .EInstFileTypeNull then [] else pszSource,
        if textOptionGiven type then [] else pszDest,
        (typeValues (fun _ options => options) type).2.1⟩, rest) := by
  rcases type with _ | t
  · rcases rest with _ | ⟨token, rest⟩
    · rfl
    · show fileTypeL pszSource pszDest (token :: rest) = _
      rw [fileTypeL]
      · rfl
      · rintro ts hts
        cases hts
        exact h rfl
  · have htext : (t.type.value = .EInstFileTypeText ∧ current (t.behind ++ rest) = .char ',') =
        (textOptionGiven (some t) = true) := propext (textOptionGiven_iff t h).symm
    rw [typeTokens, List.cons_append, List.cons_append, fileTypeL_cons, typeOptions_behind _ t h]
    simp only [htext, pres_ok_bind]
    rfl

theorem languageTypeL_tokens (type : Option TypeSpec) (h : current rest ≠ .char ',')
    (hnull : (typeValues (· ||| ·) type).1 ≠ .EInstFileTypeNull) :
    languageTypeL (typeTokens type ++ rest) =
      .ok ((typeValues (· ||| ·) type).1, (typeValues (· ||| ·) type).2.1,
        (typeValues (· ||| ·) type).2.2, rest) := by
  rcases type with _ | t
  · rcases rest with _ | ⟨token, rest⟩
    · rfl
    · show languageTypeL (token :: rest) = _
      rw [languageTypeL]
      · rfl
      · rintro ts hts
        cases hts
        exact h rfl
  · show (ParseOption KTypeOptions t.type.name >>= _) >>= _ = _
    rw [parseOption_eq t.type.known]
    have hne : t.type.value ≠ .EInstFileTypeNull := hnull
    show (if t.type.value = .EInstFileTypeNull then _ else _) = _
    rw [if_neg hne]
    show typeOptions _ t.type.value (t.behind ++ rest) >>= _ = _
    rw [typeOptions_behind _ t h]
    rfl

/-! The languages of a line. -/

theorem languageSources_files {env : ParseEnv} : ∀ (sources : List WStr) (w : CSISWriter)
    (rest : List Token), (∀ s ∈ sources, Exists env s) →
    languageSources env false sources.length w (sources.map .QUOTED_STRING_TOKEN ++ rest) =
      .ok (w.addLines (sources.map fun s =>
        .languageFile ⟨.EInstFileTypeSimple, 0, foundAs env s, [], []⟩), rest)
  | [], w, rest, _ => rfl
  | s :: sources, w, rest, h => by
    show findFile env s >>= _ = _
    rw [findFile_foundAs (h s List.mem_cons_self)]
    show languageSources env false sources.length _ (sources.map .QUOTED_STRING_TOKEN ++ rest) = _
    rw [languageSources_files sources _ rest fun s hs => h s (List.mem_cons_of_mem _ hs),
      CSISWriter.addPkgLineNode_eq, CSISWriter.addLines_append]
    rfl

theorem languageSources_packages {env : ParseEnv} : ∀ (sources : List WStr) (w : CSISWriter)
    (rest : List Token), (∀ s ∈ sources, Exists env s) →
    languageSources env true sources.length w
        (sources.flatMap (fun s => [.char '@', .QUOTED_STRING_TOKEN s]) ++ rest) =
      .ok (w.addLines (sources.map fun s =>
        .languageFile ⟨.EInstFileTypeComponent, 0, foundAs env s, [], []⟩), rest)
  | [], w, rest, _ => rfl
  | s :: sources, w, rest, h => by
    show findFile env s >>= _ = _
    rw [findFile_foundAs (h s List.mem_cons_self)]
    show languageSources env true sources.length _
      (sources.flatMap (fun s => [.char '@', .QUOTED_STRING_TOKEN s]) ++ rest) = _
    rw [languageSources_packages sources _ rest fun s hs => h s (List.mem_cons_of_mem _ hs),
      CSISWriter.addPkgLineNode_eq, CSISWriter.addLines_append]
    rfl

theorem take_addLines (w : CSISWriter) (nodes : List PKGLINENODE) :
    (w.addLines nodes).m_pPkgLineBase.take nodes.length = nodes.reverse := by
  rw [CSISWriter.addLines, List.take_append_of_le_length (by simp), List.take_of_length_le (by simp)]

theorem drop_addLines (w : CSISWriter) (nodes : List PKGLINENODE) :
    (w.addLines nodes).m_pPkgLineBase.drop nodes.length = w.m_pPkgLineBase := by
  rw [CSISWriter.addLines, List.drop_append_of_le_length (by simp), List.drop_of_length_le (by simp),
    List.nil_append]

/-- The second pass over a source of a language block leaves the file it was written as. -/
theorem setFileDestination_simple (text : UInt32 → UInt32 → UInt32) (type : Option TypeSpec)
    (pszSource pszDest : WStr) :
    (PKGLINENODE.languageFile ⟨.EInstFileTypeSimple, 0, pszSource, [], []⟩).setFileDestination pszDest
        (typeValues text type).2.1 (typeValues text type).1 (typeValues text type).2.2 =
      .languageFile ⟨(typeValues text type).1, (typeValues text type).2.2, pszSource, pszDest,
        (typeValues text type).2.1⟩ := by
  rcases type with _ | ⟨⟨name, value, known⟩, mime, options⟩
  · rfl
  · rcases value with _ | _ | _ | _ | _ | _
    all_goals simp [typeValues, furtherOptions, PKGLINENODE.setFileDestination, List.foldl_fixed]

theorem setLangDependFileDestinations_addLines {w : CSISWriter} {nodes : List PKGLINENODE}
    (h : nodes.length = w.m_wNumLangs.toNat) (pszDest pszMimeType : WStr) (dwType : TInstFileType)
    (dwOptions : UInt32) :
    (w.addLines nodes).SetLangDependFileDestinations pszDest pszMimeType dwType dwOptions =
      w.addLines (nodes.map (PKGLINENODE.setFileDestination pszDest pszMimeType dwType dwOptions)) := by
  have hnum : (w.addLines nodes).m_wNumLangs.toNat = nodes.length := h.symm
  rw [CSISWriter.SetLangDependFileDestinations, hnum, take_addLines, drop_addLines,
    CSISWriter.addLines, CSISWriter.addLines, List.map_reverse]

theorem setLangDependCompDestinations_addLines {w : CSISWriter} {nodes : List PKGLINENODE}
    (h : nodes.length = w.m_wNumLangs.toNat) (dwUID : UInt32) :
    (w.addLines nodes).SetLangDependCompDestinations dwUID =
      w.addLines (nodes.map (PKGLINENODE.setCompDestination dwUID)) := by
  have hnum : (w.addLines nodes).m_wNumLangs.toNat = nodes.length := h.symm
  rw [CSISWriter.SetLangDependCompDestinations, hnum, take_addLines, drop_addLines,
    CSISWriter.addLines, CSISWriter.addLines, List.map_reverse]

/-! Option lists. -/

theorem langStrings_tokens : ∀ (ss : List WStr) (base : List WStr) (rest : List Token),
    langStrings ss.length base (commaStrings ss ++ rest) = .ok (ss.reverse ++ base, rest)
  | [], _, _ => rfl
  | [s], _, _ => rfl
  | s :: s' :: ss, base, rest => by
    show langStrings (s' :: ss).length (s :: base) (commaStrings (s' :: ss) ++ rest) = _
    rw [langStrings_tokens (s' :: ss) (s :: base) rest]
    simp

/-- The end of a turn of the loop over the options. -/
def optionsNext (numLangs n : ℕ) (option : PKGLINEOPTIONS) :
    List Token → PRes (PKGLINEOPTIONS × List Token)
  | .char ',' :: ts => optionsLoop numLangs n option ts
  | ts => .ok (option, ts)

theorem optionsLoop_cons (n : ℕ) (option : PKGLINEOPTIONS) (o : List WStr) (rest : List Token) :
    optionsLoop o.length (n + 1) option
        (.char '{' :: (commaStrings o ++ (.char '}' :: rest))) =
      optionsNext o.length n
        ⟨option.dwNumOptions + 1, o.reverse ++ option.pLangStringBase⟩ rest := by
  show langStrings o.length option.pLangStringBase (commaStrings o ++ (.char '}' :: rest)) >>= _ = _
  rw [langStrings_tokens]
  rfl

theorem optionsLoop_tokens (numLangs : ℕ) : ∀ (strings : List (List WStr)) (n : ℕ)
    (option : PKGLINEOPTIONS) (rest : List Token), strings ≠ [] → (∀ o ∈ strings, o.length = numLangs) →
    strings.length ≤ n →
    optionsLoop numLangs n option (optionListTokens strings ++ (.char ')' :: rest)) =
      .ok (⟨option.dwNumOptions + strings.length, strings.flatten.reverse ++ option.pLangStringBase⟩,
        .char ')' :: rest)
  | [], _, _, _, hne, _, _ => absurd rfl hne
  | _ :: _, 0, _, _, _, _, hn => absurd hn (Nat.not_succ_le_zero _)
  | [o], n + 1, option, rest, _, hlen, _ => by
    obtain rfl := hlen o List.mem_cons_self
    rw [optionListTokens, List.cons_append, List.append_assoc]
    show optionsLoop o.length (n + 1) option
      (.char '{' :: (commaStrings o ++ (.char '}' :: .char ')' :: rest))) = _
    rw [optionsLoop_cons]
    simp [optionsNext]
  | o :: o' :: os, n + 1, option, rest, _, hlen, hn => by
    obtain rfl := hlen o List.mem_cons_self
    rw [optionListTokens, List.cons_append, List.append_assoc]
    · show optionsLoop o.length (n + 1) option (.char '{' :: (commaStrings o ++
        (.char '}' :: .char ',' :: (optionListTokens (o' :: os) ++ (.char ')' :: rest))))) = _
      rw [optionsLoop_cons]
      show optionsLoop o.length n _ (optionListTokens (o' :: os) ++ (.char ')' :: rest)) = _
      rw [optionsLoop_tokens o.length (o' :: os) n _ rest (List.cons_ne_nil _ _)
        (fun p hp => hlen p (List.mem_cons_of_mem _ hp)) (Nat.le_of_succ_le_succ hn)]
      simp [Nat.add_assoc, Nat.add_comm 1]
    · intro h
      cases h

theorem length_le_optionListTokens : ∀ strings : List (List WStr),
    strings.length ≤ (optionListTokens strings).length
  | [] => le_rfl
  | [o] => by simp [optionListTokens]
  | o :: o' :: os => by
    have := length_le_optionListTokens (o' :: os)
    simp only [optionListTokens, List.length_cons, List.length_append] at this ⊢
    omega

theorem componentUid_tokens (uid : UInt64) (rest : List Token) :
    componentUid (uidTokens uid ++ rest) = .ok (uid.toUInt32, rest) := rfl

/-! The line. -/

section
variable {env : ParseEnv} {w : CSISWriter} {rest : List Token}

theorem parseFileL_tokens (hw : HeaderDone w) {source dest : WStr} {type : Option TypeSpec}
    (hl : (SrcLine.file source dest type).WellFormed env w.m_wNumLangs.toNat)
    (hrest : current rest ≠ .char ',') :
    ParseFileL env w ((SrcLine.file source dest type).tokens ++ rest) =
      .ok (w.addLines ((SrcLine.file source dest type).line env).nodes, rest) := by
  obtain ⟨hexists, hdest⟩ := hl
  have hsource : fileSource env source = .ok (if source = [] then [] else foundAs env source) := by
    unfold fileSource
    by_cases h : source = []
    · rw [if_pos h, if_pos h]
    · rw [if_neg h, if_neg h, findFile_foundAs (hexists h)]
  have hempty : ∀ (p : Prop) [Decidable p], (if p then [] else if source = [] then [] else
      foundAs env source) = if source = [] ∨ p then [] else foundAs env source := by
    intro p _
    by_cases h : source = [] <;> by_cases hp : p <;> simp [h, hp]
  rw [ParseFileL, hw.check]
  show fileSource env source >>= _ = _
  rw [hsource]
  show (if dest.head? = some 58 then _ else _) = _
  rw [if_neg hdest]
  show fileTypeL _ _ (typeTokens type ++ rest) >>= _ = _
  rw [fileTypeL_tokens _ _ type hrest, hempty]
  rfl

theorem parsePackageL_tokens (hw : HeaderDone w) {source : WStr} {uid : UInt64}
    (hl : (SrcLine.package source uid).WellFormed env w.m_wNumLangs.toNat) :
    ParsePackageL env w (.QUOTED_STRING_TOKEN source :: (uidTokens uid ++ rest)) =
      .ok (w.addLines ((SrcLine.package source uid).line env).nodes, rest) := by
  obtain ⟨hexists, hcheck⟩ := hl
  rw [ParsePackageL, hw.check]
  show findFile env source >>= _ = _
  rw [findFile_foundAs hexists, pres_ok_bind, componentUid_tokens]
  show checkEmbedded env (foundAs env source) uid.toUInt32 >>= _ = _
  rw [hcheck]
  rfl

theorem parseOptionsBlockL_tokens {strings : List (List WStr)}
    (hl : (SrcLine.options strings).WellFormed env w.m_wNumLangs.toNat) :
    ParseOptionsBlockL w (.char '(' :: (optionListTokens strings ++ (.char ')' :: rest))) =
      .ok (w.addLines ((SrcLine.options strings).line env).nodes, rest) := by
  have hlen := length_le_optionListTokens strings
  rw [ParseOptionsBlockL, expectToken_cons, pres_ok_bind,
    optionsLoop_tokens _ strings _ _ rest hl.1 hl.2 (by rw [List.length_append]; omega), pres_ok_bind]
  show Except.ok (w.AddPkgLineNode (.option ⟨0 + strings.length, strings.flatten.reverse ++ []⟩), rest) = _
  rw [Nat.zero_add, List.append_nil]
  rfl

theorem parseLanguageBlockL_files (hw : HeaderDone w) {sources : List WStr} {dest : WStr}
    {type : Option TypeSpec}
    (hl : (SrcLine.languageFiles sources dest type).WellFormed env w.m_wNumLangs.toNat)
    (hrest : current rest ≠ .char ',') :
    ParseLanguageBlockL env w (sources.map .QUOTED_STRING_TOKEN ++
        (.char '}' :: .char '-' :: .QUOTED_STRING_TOKEN dest :: (typeTokens type ++ rest))) =
      .ok (w.addLines ((SrcLine.languageFiles sources dest type).line env).nodes, rest) := by
  obtain ⟨hlen, hexists, hnull⟩ := hl
  have hfirst : (current (sources.map .QUOTED_STRING_TOKEN ++ (.char '}' :: .char '-' ::
      .QUOTED_STRING_TOKEN dest :: (typeTokens type ++ rest))) == .char '@') = false := by
    rcases sources with _ | ⟨s, sources⟩ <;> rfl
  rw [ParseLanguageBlockL, hw.check, pres_ok_bind, hfirst, ← hlen]
  show languageSources env false sources.length w _ >>= _ = _
  rw [languageSources_files sources w _ hexists]
  show languageTypeL (typeTokens type ++ rest) >>= _ = _
  rw [languageTypeL_tokens type hrest hnull]
  show Except.ok ((w.addLines _).SetLangDependFileDestinations _ _ _ _, rest) = _
  rw [setLangDependFileDestinations_addLines (by rw [List.length_map]; exact hlen), List.map_map]
  show _ = Except.ok (w.addLines (List.map _ (List.map _ sources)), rest)
  rw [List.map_map]
  congr 4
  funext s
  exact setFileDestination_simple _ type (foundAs env s) dest

theorem parseLanguageBlockL_packages (hw : HeaderDone w) (hne : w.m_wNumLangs.toNat ≠ 0) {sources : List WStr} {uid : UInt64}
    (hl : (SrcLine.languagePackages sources uid).WellFormed env w.m_wNumLangs.toNat) :
    ParseLanguageBlockL env w (sources.flatMap (fun s => [.char '@', .QUOTED_STRING_TOKEN s]) ++
        (.char '}' :: (uidTokens uid ++ rest))) =
      .ok (w.addLines ((SrcLine.languagePackages sources uid).line env).nodes, rest) := by
  obtain ⟨hlen, hexists⟩ := hl
  have hfirst : (current (sources.flatMap (fun s => [.char '@', .QUOTED_STRING_TOKEN s]) ++
      (.char '}' :: (uidTokens uid ++ rest))) == .char '@') = true := by
    rcases sources with _ | ⟨s, sources⟩
    · exact absurd hlen.symm hne
    · rfl
  rw [ParseLanguageBlockL, hw.check, pres_ok_bind, hfirst, ← hlen]
  show languageSources env true sources.length w _ >>= _ = _
  rw [languageSources_packages sources w _ hexists]
  simp only [pres_ok_bind, expectToken_cons, ↓reduceIte, componentUid_tokens]
  show Except.ok ((w.addLines _).SetLangDependCompDestinations _, rest) = _
  rw [setLangDependCompDestinations_addLines (by rw [List.length_map]; exact hlen), List.map_map]
  show _ = Except.ok (w.addLines (List.map _ (List.map _ sources)), rest)
  rw [List.map_map]
  rfl

/-- **One line.** The loop of `ParseEmbeddedBlockL` takes a line and stores its nodes. -/
theorem parseEmbeddedBlockL_line (n : ℕ) (hw : HeaderDone w) (l : SrcLine)
    (hl : l.WellFormed env w.m_wNumLangs.toNat) (hrest : current rest ≠ .char ',') :
    ParseEmbeddedBlockL env (n + 1) w (l.tokens ++ rest) =
      ParseEmbeddedBlockL env n (w.addLines (l.line env).nodes) rest := by
  rcases l with ⟨source, dest, type⟩ | ⟨source, uid⟩ | strings | ⟨sources, dest, type⟩ | ⟨sources, uid⟩
  · show ParseFileL env w ((SrcLine.file source dest type).tokens ++ rest) >>= _ = _
    rw [parseFileL_tokens hw hl hrest]
    rfl
  · show ParsePackageL env w (.QUOTED_STRING_TOKEN source :: (uidTokens uid ++ rest)) >>= _ = _
    rw [parsePackageL_tokens hw hl]
    rfl
  · have htokens : (SrcLine.options strings).tokens ++ rest =
        .char '!' :: .char '(' :: (optionListTokens strings ++ (.char ')' :: rest)) := by
      simp [SrcLine.tokens]
    rw [htokens]
    show ParseOptionsBlockL w (.char '(' :: (optionListTokens strings ++ (.char ')' :: rest))) >>= _ = _
    rw [parseOptionsBlockL_tokens hl]
    rfl
  · have htokens : (SrcLine.languageFiles sources dest type).tokens ++ rest =
        .char '{' :: (sources.map .QUOTED_STRING_TOKEN ++
          (.char '}' :: .char '-' :: .QUOTED_STRING_TOKEN dest :: (typeTokens type ++ rest))) := by
      simp [SrcLine.tokens]
    rw [htokens]
    show ParseLanguageBlockL env w (sources.map .QUOTED_STRING_TOKEN ++ _) >>= _ = _
    rw [parseLanguageBlockL_files hw hl hrest]
    rfl
  · have htokens : (SrcLine.languagePackages sources uid).tokens ++ rest =
        .char '{' :: (sources.flatMap (fun s => [.char '@', .QUOTED_STRING_TOKEN s]) ++
          (.char '}' :: (uidTokens uid ++ rest))) := by
      simp [SrcLine.tokens]
    rw [htokens]
    show ParseLanguageBlockL env w
      (sources.flatMap (fun s => [.char '@', .QUOTED_STRING_TOKEN s]) ++ _) >>= _ = _
    rw [parseLanguageBlockL_packages hw hw.numLangs_ne_zero hl]
    rfl

end

/-! ### The parser on a body -/

/-- A token at which `ParseEmbeddedBlockL` returns to `ParseIfBlockL` or to the end of the file. -/
inductive BlockEnd : Token → Prop
  | eof : BlockEnd .EOF_TOKEN
  | elseIf : BlockEnd .ELSEIF_TOKEN
  | els : BlockEnd .ELSE_TOKEN
  | endIf : BlockEnd .ENDIF_TOKEN

theorem BlockEnd.lineEnd (h : BlockEnd (current rest)) : LineEnd rest := by
  generalize ht : current rest = t at h
  refine ⟨?_, ?_, ?_⟩
  all_goals
    rw [ht]
    cases h
    all_goals first | rfl | exact nofun

theorem parseEmbeddedBlockL_end (env : ParseEnv) (n : ℕ) (w : CSISWriter)
    (h : BlockEnd (current rest)) : ParseEmbeddedBlockL env (n + 1) w rest = .ok (w, rest) := by
  generalize ht : current rest = t at h
  rw [ParseEmbeddedBlockL, ht]
  cases h <;> rfl

theorem lineEnd_itemTokens (item : Item SrcLine Expr) (rest : List Token) :
    LineEnd (itemTokens item ++ rest) := by
  rcases item with l | ⟨cond, body, tail⟩
  · rcases l with _ | _ | _ | _ | _
    all_goals exact ⟨nofun, rfl, rfl⟩
  · exact ⟨nofun, rfl, rfl⟩

theorem lineEnd_blockTokens (b : Block SrcLine Expr) (h : BlockEnd (current rest)) :
    LineEnd (blockTokens b ++ rest) := by
  rcases b with _ | ⟨item, more⟩
  · exact h.lineEnd
  · rw [blockTokens, List.append_assoc]
    exact lineEnd_itemTokens item _

theorem blockEnd_tailTokens (tail : Tail SrcLine Expr) (rest : List Token) :
    BlockEnd (current (tailTokens tail ++ rest)) := by
  rcases tail with _ | ⟨cond, body, tail⟩ | body
  · exact .endIf
  · exact .elseIf
  · exact .els

theorem length_itemTokens_pos (item : Item SrcLine Expr) : 0 < (itemTokens item).length := by
  rcases item with l | ⟨cond, body, tail⟩
  · rcases l with _ | _ | _ | _ | _
    all_goals exact Nat.succ_pos _
  · exact Nat.succ_pos _

theorem parseConditionL_tokens (node : PKGLINECONDITION → PKGLINENODE) (w : CSISWriter) (e : Expr) (h : LineEnd rest) :
    ParseConditionL node w (e.tokens ++ rest) = .ok (w.addLines [node e.cond], rest) := by
  rw [ParseConditionL, ParseExpr_tokens e h.relation h.logical]
  rfl

section
variable {env : ParseEnv} {k : ℕ}

mutual
/-- **The body.** `ParseEmbeddedBlockL` stores the nodes of a block, in the order of the source. -/
theorem parseEmbeddedBlockL_tokens : ∀ (b : Block SrcLine Expr) (w : CSISWriter) (rest : List Token)
    (n : ℕ), HeaderDone w → w.m_wNumLangs.toNat = k → b.All (SrcLine.WellFormed env k) →
    BlockEnd (current rest) → 2 * (blockTokens b).length + 1 ≤ n →
    ParseEmbeddedBlockL env n w (blockTokens b ++ rest) =
      .ok (w.addLines (blockLines env b).nodes, rest)
  | .nil, w, rest, n, _, _, _, hend, hn => by
    obtain ⟨m, rfl⟩ : ∃ m, n = m + 1 := ⟨n - 1, by omega⟩
    exact parseEmbeddedBlockL_end env m w hend
  | .cons (.line l) more, w, rest, n, hw, hk, hb, hend, hn => by
    rw [blockTokens, List.length_append] at hn
    have hpos : 0 < (itemTokens (.line l)).length := length_itemTokens_pos (.line l)
    obtain ⟨m, rfl⟩ : ∃ m, n = m + 1 := ⟨n - 1, by omega⟩
    rw [blockTokens, List.append_assoc, itemTokens,
      parseEmbeddedBlockL_line m hw l (hk ▸ hb.1) (lineEnd_blockTokens more hend).comma,
      parseEmbeddedBlockL_tokens more (w.addLines (l.line env).nodes) rest m (hw.addLines _) hk hb.2 hend
        (by omega), CSISWriter.addLines_append]
    rfl
  | .cons (.ifBlock cond body tail) more, w, rest, n, hw, hk, hb, hend, hn => by
    simp only [blockTokens, itemTokens, List.length_append, List.length_cons] at hn
    obtain ⟨m, rfl⟩ : ∃ m, n = m + 2 := ⟨n - 2, by omega⟩
    have htail : BlockEnd (current (tailTokens tail ++ (blockTokens more ++ rest))) :=
      blockEnd_tailTokens tail _
    simp only [blockTokens, itemTokens, List.append_assoc, List.cons_append]
    show (ParseConditionL .condIf w (cond.tokens ++ _) >>= _) >>= _ = _
    rw [parseConditionL_tokens .condIf w cond (lineEnd_blockTokens body htail)]
    show (ParseEmbeddedBlockL env m (w.addLines [.condIf cond.cond]) (blockTokens body ++ _) >>= _) >>= _ = _
    rw [parseEmbeddedBlockL_tokens body _ _ m (hw.addLines _) hk hb.1.1 htail (by omega)]
    show elseIfLoop env m _ (tailTokens tail ++ _) >>= _ = _
    rw [elseIfLoop_tokens tail _ _ m ((hw.addLines _).addLines _) hk hb.1.2 (by omega)]
    show ParseEmbeddedBlockL env (m + 1) _ (blockTokens more ++ rest) = _
    rw [parseEmbeddedBlockL_tokens more _ rest (m + 1) (((hw.addLines _).addLines _).addLines _) hk hb.2
      hend (by omega), CSISWriter.addLines_append, CSISWriter.addLines_append,
      CSISWriter.addLines_append]
    simp [blockLines, itemLines, Block.nodes, Item.nodes]
theorem elseIfLoop_tokens : ∀ (tail : Tail SrcLine Expr) (w : CSISWriter) (rest : List Token)
    (n : ℕ), HeaderDone w → w.m_wNumLangs.toNat = k → tail.All (SrcLine.WellFormed env k) →
    2 * (tailTokens tail).length + 1 ≤ n →
    elseIfLoop env n w (tailTokens tail ++ rest) = .ok (w.addLines (tailLines env tail).nodes, rest)
  | .endIf, w, rest, n, _, _, _, hn => by
    obtain ⟨m, rfl⟩ : ∃ m, n = m + 1 := ⟨n - 1, by omega⟩
    rfl
  | .elseIf cond body tail, w, rest, n, hw, hk, hb, hn => by
    simp only [tailTokens, List.length_append, List.length_cons] at hn
    obtain ⟨m, rfl⟩ : ∃ m, n = m + 1 := ⟨n - 1, by omega⟩
    have htail : BlockEnd (current (tailTokens tail ++ rest)) := blockEnd_tailTokens tail _
    simp only [tailTokens, List.append_assoc, List.cons_append]
    show ParseConditionL .condElseIf w (cond.tokens ++ _) >>= _ = _
    rw [parseConditionL_tokens .condElseIf w cond (lineEnd_blockTokens body htail)]
    show ParseEmbeddedBlockL env m (w.addLines [.condElseIf cond.cond]) (blockTokens body ++ _) >>= _ = _
    rw [parseEmbeddedBlockL_tokens body _ _ m (hw.addLines _) hk hb.1 htail (by omega)]
    show elseIfLoop env m _ (tailTokens tail ++ _) = _
    rw [elseIfLoop_tokens tail _ _ m ((hw.addLines _).addLines _) hk hb.2 (by omega),
      CSISWriter.addLines_append, CSISWriter.addLines_append]
    simp [tailLines, Tail.nodes]
  | .els body, w, rest, n, hw, hk, hb, hn => by
    simp only [tailTokens, List.length_append, List.length_cons] at hn
    obtain ⟨m, rfl⟩ : ∃ m, n = m + 1 := ⟨n - 1, by omega⟩
    simp only [tailTokens, List.append_assoc, List.cons_append]
    show ParseEmbeddedBlockL env m (w.addLines [.condElse]) (blockTokens body ++ _) >>= _ = _
    rw [parseEmbeddedBlockL_tokens body _ (.ENDIF_TOKEN :: ([] ++ rest)) m (hw.addLines _) hk hb .endIf
      (by omega)]
    show Except.ok (((w.addLines _).addLines _).addLines [.condEndIf], rest) = _
    rw [CSISWriter.addLines_append, CSISWriter.addLines_append]
    simp [tailLines, Tail.nodes]
end

/-- **The file.** Behind the header, a body up to the end of the file leaves its nodes. -/
theorem ParseL_tokens (fIsStub : Bool) (b : Block SrcLine Expr) {w : CSISWriter} (hw : HeaderDone w)
    (hb : b.All (SrcLine.WellFormed env w.m_wNumLangs.toNat)) (n : ℕ) :
    ParseL env fIsStub (n + 2) w false (blockTokens b) = .ok (w.addLines (blockLines env b).nodes) := by
  have hbody := parseEmbeddedBlockL_tokens b w [] (bodyFuel (blockTokens b)) hw rfl hb .eof
    (by rw [bodyFuel])
  rw [List.append_nil] at hbody
  by_cases hcur : current (blockTokens b) = .EOF_TOKEN
  · have hnil : b = .nil := by
      rcases b with _ | ⟨l | ⟨cond, body, tail⟩, more⟩
      · rfl
      · rcases l with _ | _ | _ | _ | _
        all_goals cases hcur
      · cases hcur
    subst hnil
    rfl
  · rw [ParseL, if_neg (by simp [hcur]), hbody]
    rfl

end

end Source

end GnuPoc.Pkg
