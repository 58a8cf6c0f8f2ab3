import GnuPoc.Sis.AddedFields

/-!
# GnuPoc.Sis.DataUnits — which data unit the files of a package come to

The files of a package itself go into its own data unit, the first one; the data units of the embedded packages
follow in the order of their lines.  A description refers to its file by the place in the unit, a controller to
its unit by the data index.
-/

namespace GnuPoc.Sis

open GnuPoc.Lib GnuPoc.Pkg

/-! ### Data indices -/

/-- The data index among the elements of a controller. -/
def dataIndex? (elements : List SISField) : Option UInt32 :=
  match findElement (LeafClass.id .SISDataIndex) elements with
  | some (.leaf (.SISDataIndex iValue)) => some iValue
  | _ => none

mutual
/-- The data indices of the controllers at every depth, an outer one before those inside. -/
def dataIndices : SISField → List ℕ
  | .leaf _ => []
  | .SISArray _ fs => dataIndicesAll fs
  | .compound c fs =>
    (if c = .plain .SISController then (dataIndex? fs).toList.map UInt32.toNat else []) ++ dataIndicesAll fs
def dataIndicesAll : List SISField → List ℕ
  | [] => []
  | f :: fs => dataIndices f ++ dataIndicesAll fs
end

/-- The data indices of a controller with these elements and of those inside it. -/
def controllerIndices (elements : List SISField) : List ℕ :=
  (dataIndex? elements).toList.map UInt32.toNat ++ dataIndicesAll elements

theorem eq_dataIndex {f : SISField} (h : f.id = LeafClass.id .SISDataIndex) :
    ∃ iValue, f = .leaf (.SISDataIndex iValue) := by
  have hcls := newObject_id f.cls
  rw [show f.cls.id = LeafClass.id .SISDataIndex from h] at hcls
  have hleaf : FieldClass.leaf .SISDataIndex = f.cls := Option.some.inj hcls
  cases f with
  | leaf l =>
    cases l with
    | SISDataIndex iValue => exact ⟨iValue, rfl⟩
    | _ => cases hleaf
  | SISArray iType fs => cases hleaf
  | compound c fs => cases hleaf

theorem findElement_dataIndex {elements : List SISField} {f : SISField}
    (h : findElement (LeafClass.id .SISDataIndex) elements = some f) :
    ∃ iValue, f = .leaf (.SISDataIndex iValue) ∧ dataIndex? elements = some iValue := by
  have hid : f.id = LeafClass.id .SISDataIndex := by
    rw [findElement] at h
    simpa using List.find?_some h
  obtain ⟨iValue, rfl⟩ := eq_dataIndex hid
  refine ⟨iValue, rfl, ?_⟩
  rw [dataIndex?, h]

theorem dataIndicesAll_updateElement (iValue : UInt32) (elements : List SISField) :
    dataIndicesAll (updateElement (.leaf (.SISDataIndex iValue)) elements) = dataIndicesAll elements := by
  induction elements with
  | nil => rfl
  | cons f elements ih =>
    rw [updateElement]
    by_cases hf : f.id = (SISField.leaf (.SISDataIndex iValue)).id
    · obtain ⟨old, rfl⟩ := eq_dataIndex hf
      rw [if_pos hf]
      rfl
    · rw [if_neg hf, dataIndicesAll, dataIndicesAll, ih]

theorem controllerIndices_updateElement {elements : List SISField} (h : (dataIndex? elements).isSome = true)
    (iValue : UInt32) : controllerIndices (updateElement (.leaf (.SISDataIndex iValue)) elements) =
      iValue.toNat :: dataIndicesAll elements := by
  have hsome : (findElement (LeafClass.id .SISDataIndex) elements).isSome = true := by
    rw [dataIndex?] at h
    rcases hfound : findElement (LeafClass.id .SISDataIndex) elements with _ | f
    · rw [hfound] at h
      exact h
    · rfl
  have hfind : findElement (LeafClass.id .SISDataIndex) (updateElement (.leaf (.SISDataIndex iValue)) elements) =
      some (.leaf (.SISDataIndex iValue)) :=
    @findElement_updateElement (.leaf (.SISDataIndex iValue)) _ hsome
  rw [controllerIndices, dataIndicesAll_updateElement, dataIndex?, hfind]
  rfl

/-! ### Entries of a controller -/

/-- The place in the data unit of the file that a description refers to; a Null file has none. -/
def referredIndex : SISField → Option UInt32
  | .compound (.SISFileDescription iOperation _ _ _ iIndex) _ => if iOperation = EOpNull then none else some iIndex
  | _ => none

/-- The elements of an embedded controller. -/
def embeddedController : SISField → Option (List SISField)
  | .compound (.plain .SISController) fs => some fs
  | _ => none

/-! ### Embedded packages -/

/-- What of an embedded package goes into the package. -/
structure EmbeddedPackage where
  controller : List SISField
  dataUnits : List SISField

/-- The package in the file of a line. -/
def embeddedPackage (env : Env) (file : PKGLINEFILE) : Res EmbeddedPackage := do
  let (controller, data) ← loadEmbedded env file
  match findElement (FieldClass.id .SISArray) data with
  | some (.SISArray _ embedDataUnitArray) =>
    .ok ⟨controller, embedDataUnitArray.filter fun f => f.id = PlainClass.id .SISDataUnit⟩
  | _ => .error .nullField

/-- Embedded packages, each with the number of data units in front of its own. -/
def placed : ℕ → List EmbeddedPackage → List (ℕ × EmbeddedPackage)
  | _, [] => []
  | count, package :: packages => (count, package) :: placed (count + package.dataUnits.length) packages

/-- The controller of a package behind so many data units, as `LoadEmbeddedSis` leaves it. -/
def placedController (place : ℕ × EmbeddedPackage) : List SISField :=
  updateElement (.leaf (.SISDataIndex (UInt32.ofNat place.1))) place.2.controller

/-- The lines that embed packages. -/
def packageFiles (files : List (PKGLINEFILE × Bool)) : List PKGLINEFILE :=
  (files.filter fun file => file.1.type = .EInstFileTypeComponent).map Prod.fst

/-- A file whose contents are stored in the package's own data unit. -/
def isStored (file : PKGLINEFILE × Bool) : Bool :=
  file.1.type ≠ .EInstFileTypeComponent ∧ file.1.type ≠ .EInstFileTypeNull

/-- What the parser makes sure of: a Null file has neither a source nor a MIME type, and does not depend on the
language. -/
def FileFits (file : PKGLINEFILE × Bool) : Prop :=
  file.1.type = .EInstFileTypeNull → file.2 = false ∧ file.1.pszSource = [] ∧ file.1.pszMimeType = []

section
variable {ctx : GenContext} {t t' : Supplies} {file : PKGLINEFILE × Bool} {field : SISField ⊕ SISField}

theorem addFile_package (hcomponent : file.1.type = .EInstFileTypeComponent)
    (h : addFile ctx file.1 file.2 t = .ok (field, t')) :
    ∃ package units, embeddedPackage ctx.env file.1 = .ok package ∧ (dataIndex? package.controller).isSome = true ∧
      field = .inl (.plain .SISController (placedController (1 + t.dataUnits.length, package))) ∧
      package.dataUnits.mapM (Recompress ctx.env.zlib (compressionOf ctx.flags)) = .ok units ∧
      t' = { t with dataUnits := t.dataUnits ++ units } := by
  rw [addFile, if_pos hcomponent] at h
  obtain ⟨⟨controller, units⟩, hload, h⟩ := bind_eq_ok.mp h
  cases h
  obtain ⟨⟨elements, data⟩, hembedded, hload⟩ := bind_eq_ok.mp hload
  simp only at hload
  split at hload
  · next f iType array hindex harray =>
    obtain ⟨units', hunits, hload⟩ := bind_eq_ok.mp hload
    cases hload
    obtain ⟨old, -, hold⟩ := findElement_dataIndex hindex
    refine ⟨⟨elements, array.filter fun f => f.id = PlainClass.id .SISDataUnit⟩, units, ?_, ?_, rfl, hunits, rfl⟩
    · rw [embeddedPackage, hembedded, ok_bind]
      simp only [harray]
    · rw [hold]
      rfl
  · cases hload

theorem fileOperation_ne_null (hnull : file.1.type ≠ .EInstFileTypeNull) :
    (fileOperation file.1 file.2).1 ≠ EOpNull := by
  cases htype : file.1.type with
  | EInstFileTypeNull => exact absurd htype hnull
  | EInstFileTypeSimple =>
    rw [fileOperation, htype]
    dsimp only
    split
    · exact (by decide : EOpRun ≠ EOpNull)
    · show (if file.2 then 0 else EOpInstall) ≠ EOpNull
      split
      · decide
      · decide
  | _ =>
    rw [fileOperation, htype]
    dsimp only
    split
    · exact (by decide : EOpRun ≠ EOpNull)
    · dsimp only
      decide

theorem loadFile_index {env : Env} {flags : UInt16} {filename : WStr} {index : UInt32} {loaded : LoadedFile}
    (h : LoadFile env flags filename index = .ok loaded) (hne : filename ≠ []) : loaded.index = index := by
  rw [LoadFile, if_neg hne] at h
  split at h
  · cases h
  · obtain ⟨c, -, h⟩ := bind_eq_ok.mp h
    cases h
    rfl

theorem loadFile_empty {env : Env} {flags : UInt16} {index : UInt32} {loaded : LoadedFile}
    (h : LoadFile env flags [] index = .ok loaded) : loaded.fileData = none := by
  rw [LoadFile, if_pos rfl] at h
  cases h
  rfl

theorem addFile_stored (hstub : ctx.stub = false) (hstored : isStored file = true)
    (h : addFile ctx file.1 file.2 t = .ok (field, t')) :
    ∃ desc data, field = .inr desc ∧ embeddedController desc = none ∧ referredIndex desc = some t.index ∧
      t' = { t with index := t.index + 1, fileDataArray := t.fileDataArray ++ [data] } := by
  obtain ⟨hcomponent, hnull⟩ := of_decide_eq_true hstored
  rw [addFile, if_neg hcomponent] at h
  obtain ⟨⟨desc, data⟩, hdesc, h⟩ := bind_eq_ok.mp h
  simp only [hstub] at h
  rw [if_pos (.inr hnull), if_neg (by simp)] at h
  obtain ⟨array, harray, h⟩ := bind_eq_ok.mp h
  cases h
  obtain ⟨loaded, hloaded, hdesc⟩ := bind_eq_ok.mp hdesc
  cases hdesc
  rcases hdata : loaded.fileData with _ | data
  · rw [hdata] at harray
    cases harray
  · rw [hdata] at harray
    cases harray
    have hsource : file.1.pszSource ≠ [] := by
      intro hempty
      rw [hempty] at hloaded
      rw [loadFile_empty hloaded] at hdata
      cases hdata
    refine ⟨_, data, rfl, rfl, ?_, rfl⟩
    show (if (fileOperation file.1 file.2).1 = EOpNull then none else some loaded.index) = _
    rw [if_neg (fileOperation_ne_null hnull), loadFile_index hloaded hsource]

theorem addFile_null_file (hfits : FileFits file) (hnull : file.1.type = .EInstFileTypeNull)
    (h : addFile ctx file.1 file.2 t = .ok (field, t')) :
    ∃ desc, field = .inr desc ∧ embeddedController desc = none ∧ referredIndex desc = none ∧ t' = t := by
  obtain ⟨hlang, -, hmime⟩ := hfits hnull
  have hcomponent : file.1.type ≠ .EInstFileTypeComponent := by
    rw [hnull]
    decide
  rw [addFile, if_neg hcomponent] at h
  obtain ⟨⟨desc, data⟩, hdesc, h⟩ := bind_eq_ok.mp h
  simp only at h
  have hunstored : ¬ (file.2 = true ∨ file.1.type ≠ .EInstFileTypeNull) := by
    simp [hlang, hnull]
  rw [if_neg hunstored] at h
  cases h
  obtain ⟨loaded, -, hdesc⟩ := bind_eq_ok.mp hdesc
  cases hdesc
  have hoperation : (fileOperation file.1 file.2).1 = EOpNull := by
    rw [fileOperation, hnull]
    dsimp only
    rw [hmime, if_neg (not_not.mpr rfl)]
  refine ⟨_, rfl, rfl, ?_, rfl⟩
  show (if (fileOperation file.1 file.2).1 = EOpNull then none else some loaded.index) = none
  rw [if_pos hoperation]

end

/-! ### A run over the files -/

/-- What a run over files adds: descriptions that refer to the new file data, one each, and controllers with the
places of their packages. -/
structure FilesAdded (ctx : GenContext) (files : List (PKGLINEFILE × Bool)) (t t' : Supplies)
    (added : List SISField) (packages : List EmbeddedPackage) : Prop where
  loaded : List.Forall₂ (fun file package => embeddedPackage ctx.env file = .ok package) (packageFiles files) packages
  indexed : ∀ package ∈ packages, (dataIndex? package.controller).isSome = true
  controllers : added.filterMap embeddedController =
    (placed (1 + t.dataUnits.length) packages).map placedController
  dataUnits : ∃ units, List.Forall₂ (fun package units =>
      package.dataUnits.mapM (Recompress ctx.env.zlib (compressionOf ctx.flags)) = .ok units) packages units ∧
    t'.dataUnits = t.dataUnits ++ units.flatten
  fileData : ∃ data, t'.fileDataArray = t.fileDataArray ++ data ∧ data.length = files.countP isStored ∧
    t'.index = t.index + UInt32.ofNat data.length ∧
    added.filterMap referredIndex = (List.range data.length).map fun k => t.index + UInt32.ofNat k

section
variable {ctx : GenContext}

theorem mapM_length {α β : Type} {f : α → Res β} : ∀ {l : List α} {r : List β}, l.mapM f = .ok r → r.length = l.length
  | [], r, h => by
    cases h
    rfl
  | a :: l, r, h => by
    rw [List.mapM_cons] at h
    obtain ⟨b, -, h⟩ := bind_eq_ok.mp h
    obtain ⟨bs, hbs, h⟩ := bind_eq_ok.mp h
    cases h
    rw [List.length_cons, List.length_cons, mapM_length hbs]

theorem ofNat_succ (n k : ℕ) : UInt32.ofNat n + UInt32.ofNat k = UInt32.ofNat (n + k) :=
  (UInt32.ofNat_add n k).symm

/-- What the files of a package add, in order. -/
theorem addFiles_filesAdded (hstub : ctx.stub = false) : ∀ (files : List (PKGLINEFILE × Bool)) {t t' : Supplies}
    {added : List SISField}, (∀ file ∈ files, FileFits file) → addFiles ctx files t = .ok (added, t') →
    ∃ packages, FilesAdded ctx files t t' added packages
  | [], t, t', added, hfits, h => by
    cases h
    refine ⟨[], .nil, ?_, rfl, ⟨[], .nil, ?_⟩, ⟨[], ?_, rfl, ?_, rfl⟩⟩
    · intro package hpackage
      cases hpackage
    · exact (List.append_nil _).symm
    · exact (List.append_nil _).symm
    · exact (UInt32.add_zero _).symm
  | file :: files, t, t', added, hfits, h => by
    obtain ⟨⟨field, t₁⟩, hfile, h⟩ := bind_eq_ok.mp h
    obtain ⟨⟨fields, t₂⟩, hrest, h⟩ := bind_eq_ok.mp h
    cases h
    obtain ⟨packages, ih⟩ := addFiles_filesAdded hstub files (fun f hf => hfits f (List.mem_cons_of_mem _ hf)) hrest
    obtain ⟨data, hdata, hlen, hindex, hreferred⟩ := ih.fileData
    by_cases hcomponent : file.1.type = .EInstFileTypeComponent
    · obtain ⟨package, units, hpackage, hindexed, rfl, hunits, rfl⟩ := addFile_package hcomponent hfile
      obtain ⟨rest, hall, happend⟩ := ih.dataUnits
      refine ⟨package :: packages, ?_, ?_, ?_, ⟨units :: rest, .cons hunits hall, ?_⟩,
        ⟨data, hdata, ?_, hindex, hreferred⟩⟩
      · rw [packageFiles, List.filter_cons_of_pos (by simpa using hcomponent), List.map_cons]
        exact .cons hpackage ih.loaded
      · intro p hp
        rcases List.mem_cons.mp hp with rfl | hp
        · exact hindexed
        · exact ih.indexed p hp
      · have hcontrollers := ih.controllers
        simp only [List.length_append, mapM_length hunits] at hcontrollers
        rw [placed, List.map_cons, Nat.add_assoc, ← hcontrollers]
        rfl
      · rw [happend, List.flatten_cons, List.append_assoc]
      · rw [hlen, List.countP_cons_of_neg (by simp [isStored, hcomponent])]
    · have hpackages : packageFiles (file :: files) = packageFiles files := by
        rw [packageFiles, List.filter_cons_of_neg (by simpa using hcomponent)]
        rfl
      by_cases hnull : file.1.type = .EInstFileTypeNull
      · obtain ⟨desc, rfl, hcontroller, hrefer, rfl⟩ :=
          addFile_null_file (hfits file (List.mem_cons_self ..)) hnull hfile
        refine ⟨packages, ?_, ih.indexed, ?_, ih.dataUnits, ⟨data, hdata, ?_, hindex, ?_⟩⟩
        · rw [hpackages]
          exact ih.loaded
        · exact (List.filterMap_cons_none hcontroller).trans ih.controllers
        · rw [hlen, List.countP_cons_of_neg (by simp [isStored, hnull])]
        · exact (List.filterMap_cons_none hrefer).trans hreferred
      · have hstored : isStored file = true := decide_eq_true ⟨hcomponent, hnull⟩
        obtain ⟨desc, first, rfl, hcontroller, hrefer, rfl⟩ := addFile_stored hstub hstored hfile
        refine ⟨packages, ?_, ih.indexed, ?_, ih.dataUnits, ⟨first :: data, ?_, ?_, ?_, ?_⟩⟩
        · rw [hpackages]
          exact ih.loaded
        · exact (List.filterMap_cons_none hcontroller).trans ih.controllers
        · rw [hdata, List.append_assoc]
          rfl
        · rw [List.length_cons, hlen, List.countP_cons_of_pos hstored]
        · rw [hindex, List.length_cons, UInt32.add_assoc, Nat.add_comm data.length]
          exact congrArg (t.index + ·) (ofNat_succ 1 data.length)
        · refine (List.filterMap_cons_some hrefer).trans ?_
          rw [hreferred, List.length_cons, List.range_succ_eq_map, List.map_cons, List.map_map]
          refine congrArg₂ List.cons (UInt32.add_zero _).symm ?_
          refine List.map_congr_left ?_
          intro k hk
          show t.index + 1 + UInt32.ofNat k = t.index + UInt32.ofNat (k + 1)
          rw [UInt32.add_assoc, Nat.add_comm k]
          exact congrArg (t.index + ·) (ofNat_succ 1 k)

end

end GnuPoc.Sis
