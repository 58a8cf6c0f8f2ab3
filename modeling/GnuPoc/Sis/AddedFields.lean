import GnuPoc.Sis.Tree
import Mathlib.Data.List.Perm.Basic

/-!
# GnuPoc.Sis.AddedFields — the descriptions and the controllers in a tree of install blocks

A package adds a description for each file and a controller for each embedded package, in source order.  They
end up at different places of the tree, but each at one: the tree holds what the files have added, file after
file.
-/

namespace GnuPoc.Sis

open GnuPoc.Lib GnuPoc.Pkg

/-! ### Entries -/

/-- A file description or the controller of an embedded package. -/
def Compound.isEntry : Compound → Bool
  | .SISFileDescription .. => true
  | .plain .SISController => true
  | _ => false

mutual
/-- The descriptions and the controllers in a tree, without those inside the controllers. -/
def entries : SISField → List SISField
  | .leaf _ => []
  | .SISArray _ fs => entriesAll fs
  | .compound c fs => if c.isEntry then [.compound c fs] else entriesAll fs
def entriesAll : List SISField → List SISField
  | [] => []
  | f :: fs => entries f ++ entriesAll fs
end

theorem entriesAll_append (fs gs : List SISField) : entriesAll (fs ++ gs) = entriesAll fs ++ entriesAll gs := by
  induction fs with
  | nil => rfl
  | cons f fs ih => rw [List.cons_append, entriesAll, entriesAll, ih, List.append_assoc]

theorem entriesAll_singleton (f : SISField) : entriesAll [f] = entries f := List.append_nil _

theorem entries_getExpression : ∀ cond : PKGLINECONDITION, entries (GetExpression cond) = []
  | .binary op pLhs pRhs => by
    show entriesAll [GetExpression pLhs, GetExpression pRhs] = []
    rw [entriesAll, entriesAll_singleton, entries_getExpression pLhs, entries_getExpression pRhs]
    rfl
  | .unary op pExpr => by
    have hplain : entries (.compound (.SISExpression op.exprType 0) [GetExpression pExpr]) = [] := by
      show entriesAll [GetExpression pExpr] = []
      rw [entriesAll_singleton, entries_getExpression pExpr]
    cases op with
    | EInstCondFuncExists => rfl
    | _ => exact hplain
  | .string s => rfl
  | .number prim dwNumber => rfl

/-! ### The files of a package -/

/-- The files of a line for `n` languages, each with whether it depends on the language. -/
def lineFiles (n : ℕ) : Line → List (PKGLINEFILE × Bool)
  | .file f => [(f, false)]
  | .languageFiles fs => (fs.take n).map fun f => (f, true)
  | .option _ => []

mutual
/-- The files of a block in source order. -/
def blockFiles (n : ℕ) : Block Line PKGLINECONDITION → List (PKGLINEFILE × Bool)
  | .nil => []
  | .cons item rest => itemFiles n item ++ blockFiles n rest
def itemFiles (n : ℕ) : Item Line PKGLINECONDITION → List (PKGLINEFILE × Bool)
  | .line l => lineFiles n l
  | .ifBlock _ body tail => blockFiles n body ++ tailFiles n tail
def tailFiles (n : ℕ) : Tail Line PKGLINECONDITION → List (PKGLINEFILE × Bool)
  | .endIf => []
  | .elseIf _ body tail => blockFiles n body ++ tailFiles n tail
  | .els body => blockFiles n body
end

/-- A description or a controller, as the field it is. -/
def addedField : SISField ⊕ SISField → SISField := Sum.elim id id

/-- The files of a package one after the other. -/
def addFiles (ctx : GenContext) : List (PKGLINEFILE × Bool) → Supplies → Res (List SISField × Supplies)
  | [], t => .ok ([], t)
  | file :: files, t => do
    let (field, t) ← addFile ctx file.1 file.2 t
    let (fields, t) ← addFiles ctx files t
    .ok (addedField field :: fields, t)

/-- The supplies without the options, which the files do not touch. -/
def Supplies.ofFiles (t : Supplies) : Supplies := { t with optionsArray := [] }

section
variable {ctx : GenContext} {t t' : Supplies}

theorem addFile_ofFiles {file : PKGLINEFILE} {langDep : Bool} {field : SISField ⊕ SISField}
    (h : addFile ctx file langDep t = .ok (field, t')) :
    addFile ctx file langDep t.ofFiles = .ok (field, t'.ofFiles) := by
  rw [addFile] at h ⊢
  by_cases hcomponent : file.type = .EInstFileTypeComponent
  · rw [if_pos hcomponent] at h ⊢
    obtain ⟨⟨controller, units⟩, hload, h⟩ := bind_eq_ok.mp h
    cases h
    exact bind_eq_ok.mpr ⟨(controller, units), hload, rfl⟩
  · rw [if_neg hcomponent] at h ⊢
    obtain ⟨⟨fileDesc, fileData⟩, hdesc, h⟩ := bind_eq_ok.mp h
    refine bind_eq_ok.mpr ⟨(fileDesc, fileData), hdesc, ?_⟩
    simp only at h ⊢
    by_cases hstored : langDep ∨ file.type ≠ .EInstFileTypeNull
    · rw [if_pos hstored] at h ⊢
      by_cases hstub : ctx.stub
      · rw [if_pos hstub] at h ⊢
        cases h
        rfl
      · rw [if_neg hstub] at h ⊢
        obtain ⟨fileDataArray, hadd, h⟩ := bind_eq_ok.mp h
        cases h
        exact bind_eq_ok.mpr ⟨fileDataArray, hadd, rfl⟩
    · rw [if_neg hstored] at h ⊢
      cases h
      rfl

theorem addFiles_append {files files' : List (PKGLINEFILE × Bool)} {fields fields' : List SISField}
    {t₁ : Supplies} (h : addFiles ctx files t = .ok (fields, t₁))
    (h' : addFiles ctx files' t₁ = .ok (fields', t')) :
    addFiles ctx (files ++ files') t = .ok (fields ++ fields', t') := by
  induction files generalizing t fields with
  | nil =>
    cases h
    exact h'
  | cons file files ih =>
    obtain ⟨⟨field, t₂⟩, hfile, h⟩ := bind_eq_ok.mp h
    obtain ⟨⟨rest, t₃⟩, hrest, h⟩ := bind_eq_ok.mp h
    cases h
    rw [List.cons_append, addFiles, hfile]
    simp only [ok_bind]
    rw [ih hrest]
    rfl

theorem addFile_entries {file : PKGLINEFILE} {langDep : Bool} {field : SISField ⊕ SISField}
    (h : addFile ctx file langDep t = .ok (field, t')) :
    entries (Contents.single field).field = [addedField field] := by
  rw [addFile] at h
  by_cases hcomponent : file.type = .EInstFileTypeComponent
  · rw [if_pos hcomponent] at h
    obtain ⟨⟨controller, units⟩, hload, h⟩ := bind_eq_ok.mp h
    cases h
    obtain ⟨⟨elements, data⟩, -, hload⟩ := bind_eq_ok.mp hload
    simp only at hload
    split at hload
    · obtain ⟨units', -, hload⟩ := bind_eq_ok.mp hload
      cases hload
      rfl
    · cases hload
  · rw [if_neg hcomponent] at h
    obtain ⟨⟨fileDesc, fileData⟩, hdesc, h⟩ := bind_eq_ok.mp h
    obtain ⟨loaded, -, hdesc⟩ := bind_eq_ok.mp hdesc
    cases hdesc
    have hfield : field = .inr (fileDescription file.pszDest file.pszMimeType
        (if langDep then none else loaded.rawFile.bind ctx.env.capabilities) (GetHash ctx.env loaded.rawFile)
        (fileOperation file langDep).1 (fileOperation file langDep).2 loaded) := by
      simp only at h
      split at h
      · split at h
        · cases h
          rfl
        · obtain ⟨fileDataArray, -, h⟩ := bind_eq_ok.mp h
          cases h
          rfl
      · cases h
        rfl
    rw [hfield]
    rfl

end

/-! ### The tree holds what the files add -/

theorem entries_field (c : Contents) :
    entries c.field = entriesAll c.files ++ (entriesAll c.embedded ++ entriesAll c.ifs) := by
  show entriesAll [_, _, _] = _
  rw [entriesAll, entriesAll, entriesAll_singleton]
  rfl

theorem entries_append (c d : Contents) : (entries (c.append d).field).Perm (entries c.field ++ entries d.field) := by
  rw [entries_field, entries_field, entries_field]
  show (entriesAll (c.files ++ d.files) ++ (entriesAll (c.embedded ++ d.embedded) ++
    entriesAll (c.ifs ++ d.ifs))).Perm _
  rw [entriesAll_append, entriesAll_append, entriesAll_append]
  simp only [List.append_assoc]
  refine (List.Perm.refl _).append ?_
  refine ((List.perm_append_comm_assoc _ _ _).trans ?_)
  refine (List.Perm.refl _).append ?_
  have hrest : (entriesAll d.files ++ (entriesAll d.embedded ++ (entriesAll c.ifs ++ entriesAll d.ifs))).Perm
      (entriesAll c.ifs ++ (entriesAll d.files ++ (entriesAll d.embedded ++ entriesAll d.ifs))) := by
    refine ((List.Perm.refl _).append (List.perm_append_comm_assoc _ _ _)).trans ?_
    exact List.perm_append_comm_assoc _ _ _
  exact hrest

theorem entries_ifField (exp installBlock : SISField) (elseIfs : List SISField) (hexp : entries exp = []) :
    entries (ifField exp installBlock elseIfs) = entries installBlock ++ entriesAll elseIfs := by
  show entriesAll [_, _, _] = _
  rw [entriesAll, entriesAll, entriesAll_singleton, hexp]
  rfl

theorem entries_elseIfField (exp installBlock : SISField) (hexp : entries exp = []) :
    entries (elseIfField exp installBlock) = entries installBlock := by
  show entriesAll [_, _] = _
  rw [entriesAll, entriesAll_singleton, hexp]
  rfl

theorem entries_ofIf (f : SISField) : entries (Contents.ofIf f).field = entries f := by
  rw [entries_field]
  exact entriesAll_singleton f

theorem entriesAll_leaves {α : Type} (leaf : α → Leaf) (l : List α) : entriesAll (l.map fun a => .leaf (leaf a)) = [] := by
  induction l with
  | nil => rfl
  | cons a l ih => exact ih

theorem optionFields_entries {numLanguages : ℕ} : ∀ {n : ℕ} {base : List WStr} {options : List SISField},
    optionFields numLanguages n base = .ok options → entriesAll options = []
  | 0, base, options, h => by
    cases h
    rfl
  | n + 1, base, options, h => by
    rw [optionFields] at h
    split at h
    · cases h
    · obtain ⟨options', hoptions, h⟩ := bind_eq_ok.mp h
      cases h
      rw [entriesAll_append, optionFields_entries hoptions, entriesAll_singleton]
      show entriesAll [.SISArray _ _] = []
      rw [entriesAll_singleton, ← List.map_reverse]
      exact entriesAll_leaves Leaf.SISString _

section
variable {ctx : GenContext}

theorem addFile_options {file : PKGLINEFILE} {langDep : Bool} {t t' : Supplies} {field : SISField ⊕ SISField}
    (h : addFile ctx file langDep t = .ok (field, t')) : t'.optionsArray = t.optionsArray := by
  rw [addFile] at h
  split at h
  · obtain ⟨⟨controller, units⟩, -, h⟩ := bind_eq_ok.mp h
    cases h
    rfl
  · obtain ⟨⟨fileDesc, fileData⟩, -, h⟩ := bind_eq_ok.mp h
    simp only at h
    split at h
    · split at h
      · cases h
        rfl
      · obtain ⟨fileDataArray, -, h⟩ := bind_eq_ok.mp h
        cases h
        rfl
    · cases h
      rfl

theorem languageBlocks_added : ∀ (codes : List UInt32) (files : List PKGLINEFILE) {t t' : Supplies}
    {blocks : List (SISField × SISField)}, languageBlocks ctx codes files t = .ok (blocks, t') →
    ∃ added, addFiles ctx ((files.take codes.length).map fun f => (f, true)) t.ofFiles = .ok (added, t'.ofFiles) ∧
      entriesAll (blocks.map fun b => elseIfField b.1 b.2) = added ∧ t'.optionsArray = t.optionsArray
  | [], files, t, t', blocks, h => by
    cases h
    exact ⟨[], rfl, rfl, rfl⟩
  | _ :: _, [], t, t', blocks, h => by cases h
  | langCode :: codes, file :: files, t, t', blocks, h => by
    obtain ⟨⟨field, t₁⟩, hfile, h⟩ := bind_eq_ok.mp h
    obtain ⟨⟨blocks', t₂⟩, hblocks, h⟩ := bind_eq_ok.mp h
    cases h
    obtain ⟨added, hadded, hentries, hoptions⟩ := languageBlocks_added codes files hblocks
    refine ⟨addedField field :: added, ?_, ?_, hoptions.trans (addFile_options hfile)⟩
    · rw [List.length_cons, List.take_succ_cons, List.map_cons, addFiles, addFile_ofFiles hfile]
      simp only [ok_bind]
      rw [hadded]
      rfl
    · rw [List.map_cons, entriesAll, entries_elseIfField _ _ rfl, addFile_entries hfile, hentries]
      rfl

/-- A line adds the fields of its files and no others. -/
theorem lineBuild_added (l : Line) {t t' : Supplies} {c : Contents} (h : lineBuild ctx l t = .ok (c, t')) :
    ∃ added, addFiles ctx (lineFiles ctx.langCodes.length l) t.ofFiles = .ok (added, t'.ofFiles) ∧
      (entries c.field).Perm added ∧ entriesAll t'.optionsArray = entriesAll t.optionsArray := by
  cases l with
  | file file =>
    obtain ⟨⟨field, t₁⟩, hfile, h⟩ := bind_eq_ok.mp h
    cases h
    refine ⟨[addedField field], ?_, List.Perm.of_eq (addFile_entries hfile), ?_⟩
    · rw [lineFiles, addFiles, addFile_ofFiles hfile]
      rfl
    · rw [addFile_options hfile]
  | languageFiles files =>
    obtain ⟨⟨blocks, t₁⟩, hblocks, h⟩ := bind_eq_ok.mp h
    obtain ⟨c', hif, h⟩ := bind_eq_ok.mp h
    cases h
    obtain ⟨added, hadded, hentries, hoptions⟩ := languageBlocks_added _ _ hblocks
    refine ⟨added, hadded, ?_, by rw [hoptions]⟩
    rcases blocks with _ | ⟨⟨exp, block⟩, blocks⟩
    · cases hif
    · cases hif
      rw [← hentries, entries_ofIf]
      have hexp : entries exp = [] := by
        rcases hcodes : ctx.langCodes with _ | ⟨langCode, codes⟩
        · rw [hcodes] at hblocks
          cases hblocks
        · rw [hcodes] at hblocks
          rcases files with _ | ⟨file, files⟩
          · cases hblocks
          · obtain ⟨⟨field, t₂⟩, -, hblocks⟩ := bind_eq_ok.mp hblocks
            obtain ⟨⟨blocks', t₃⟩, -, hblocks⟩ := bind_eq_ok.mp hblocks
            cases hblocks
            rfl
      rw [entries_ifField _ _ _ hexp, List.map_cons, entriesAll, entries_elseIfField _ _ hexp]
  | option option =>
    obtain ⟨options, hoptions, h⟩ := bind_eq_ok.mp h
    cases h
    refine ⟨[], rfl, .refl _, ?_⟩
    rw [entriesAll_append, optionFields_entries hoptions, List.append_nil]

mutual
theorem blockBuild_added : ∀ (b : Block Line PKGLINECONDITION) {t t' : Supplies} {c : Contents},
    blockBuild ctx b t = .ok (c, t') →
    ∃ added, addFiles ctx (blockFiles ctx.langCodes.length b) t.ofFiles = .ok (added, t'.ofFiles) ∧
      (entries c.field).Perm added ∧ entriesAll t'.optionsArray = entriesAll t.optionsArray
  | .nil, t, t', c, h => by
    cases h
    exact ⟨[], rfl, .refl _, rfl⟩
  | .cons item rest, t, t', c, h => by
    obtain ⟨⟨c₁, t₁⟩, hitem, h⟩ := bind_eq_ok.mp h
    obtain ⟨⟨c₂, t₂⟩, hrest, h⟩ := bind_eq_ok.mp h
    cases h
    obtain ⟨front, hfront, hperm, hoptions⟩ := itemBuild_added item hitem
    obtain ⟨back, hback, hperm', hoptions'⟩ := blockBuild_added rest hrest
    refine ⟨front ++ back, addFiles_append hfront hback, ?_, hoptions'.trans hoptions⟩
    exact (entries_append c₁ c₂).trans (hperm.append hperm')
theorem itemBuild_added : ∀ (item : Item Line PKGLINECONDITION) {t t' : Supplies} {c : Contents},
    itemBuild ctx item t = .ok (c, t') →
    ∃ added, addFiles ctx (itemFiles ctx.langCodes.length item) t.ofFiles = .ok (added, t'.ofFiles) ∧
      (entries c.field).Perm added ∧ entriesAll t'.optionsArray = entriesAll t.optionsArray
  | .line l, t, t', c, h => lineBuild_added l h
  | .ifBlock cond body tail, t, t', c, h => by
    obtain ⟨⟨c₁, t₁⟩, hbody, h⟩ := bind_eq_ok.mp h
    obtain ⟨⟨elseIfs, t₂⟩, htail, h⟩ := bind_eq_ok.mp h
    cases h
    obtain ⟨front, hfront, hperm, hoptions⟩ := blockBuild_added body hbody
    obtain ⟨back, hback, hperm', hoptions'⟩ := tailBuild_added tail htail
    refine ⟨front ++ back, addFiles_append hfront hback, ?_, hoptions'.trans hoptions⟩
    rw [entries_ofIf, entries_ifField _ _ _ (entries_getExpression cond)]
    exact hperm.append hperm'
theorem tailBuild_added : ∀ (tail : Tail Line PKGLINECONDITION) {t t' : Supplies} {elseIfs : List SISField},
    tailBuild ctx tail t = .ok (elseIfs, t') →
    ∃ added, addFiles ctx (tailFiles ctx.langCodes.length tail) t.ofFiles = .ok (added, t'.ofFiles) ∧
      (entriesAll elseIfs).Perm added ∧ entriesAll t'.optionsArray = entriesAll t.optionsArray
  | .endIf, t, t', elseIfs, h => by
    cases h
    exact ⟨[], rfl, .refl _, rfl⟩
  | .elseIf cond body tail, t, t', elseIfs, h => by
    obtain ⟨⟨c₁, t₁⟩, hbody, h⟩ := bind_eq_ok.mp h
    obtain ⟨⟨elseIfs', t₂⟩, htail, h⟩ := bind_eq_ok.mp h
    cases h
    obtain ⟨front, hfront, hperm, hoptions⟩ := blockBuild_added body hbody
    obtain ⟨back, hback, hperm', hoptions'⟩ := tailBuild_added tail htail
    refine ⟨front ++ back, addFiles_append hfront hback, ?_, hoptions'.trans hoptions⟩
    rw [entriesAll, entries_elseIfField _ _ (entries_getExpression cond)]
    exact hperm.append hperm'
  | .els body, t, t', elseIfs, h => by
    obtain ⟨⟨c₁, t₁⟩, hbody, h⟩ := bind_eq_ok.mp h
    cases h
    obtain ⟨front, hfront, hperm, hoptions⟩ := blockBuild_added body hbody
    refine ⟨front, hfront, ?_, hoptions⟩
    rw [entriesAll_singleton, entries_elseIfField _ _ rfl]
    exact hperm
end

end

end GnuPoc.Sis
