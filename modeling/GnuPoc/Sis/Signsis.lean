import GnuPoc.Crc
import GnuPoc.Sis.Signing

/-!
# GnuPoc.Sis.Signsis — adding and removing signatures (`signsis.cpp`)

A run reads a SIS file, changes the elements of its controller and writes the file back.  `-o` only
prints, so a run has one of two modes.  The model of a run is a function from file to file; the
theorems are about what `readController` finds before and after.
-/

namespace GnuPoc.Sis

open GnuPoc.Lib

/-- What the first half of `main` has in hand: the header, the elements of the contents, the first
`SISCompressed` among them, and the elements of the controller it holds. -/
structure SISFile where
  header : Bytes
  contents : List SISField
  cController : SISCompressed
  controller : List SISField

/-- `algorithm = cController->Algorithm()`, taken before the controller is uncompressed. -/
def SISFile.algorithm (file : SISFile) : UInt32 := file.cController.iAlgorithm

/-- `loadSISFile`.  `ftell` is cut to a `uint32_t`. -/
def loadSISFile (file : Bytes) : Res (Bytes × List SISField) := do
  let buffer := file.take (file.length % 2 ^ 32)
  let header ← copyMem 16 ⟨buffer, buffer.length⟩
  let (field, _) ← loadBuffer (buffer.drop 16)
  match field with
  | none => .error .nullField
  | some (.compound (.plain .SISContents) contents) => .ok (header, contents)
  | some _ => .error .exits

/-- `main` up to the choice of the mode. -/
def readController (z : Zlib) (file : Bytes) : Res SISFile := do
  let (header, contents) ← loadSISFile file
  match findElement (LeafClass.id .SISCompressed) contents with
  | some (.leaf (.SISCompressed cController)) => do
    let c ← cController.Uncompress z
    let (field, _) ← c.LoadChild
    match field with
    | none => .error .nullField
    | some (.compound (.plain .SISController) controller) =>
      .ok ⟨header, contents, cController, controller⟩
    | some _ => .error .exits
  | _ => .error .nullField

inductive SignsisMode
  | sign (σ : Signer)
  | remove

/-- What `main` does to the elements of the controller.  The `NULL` of a missing data index is written
through later. -/
def changeController : SignsisMode → List SISField → Res (List SISField)
  | .remove, controller =>
    .ok (findRemoveLastElement (PlainClass.id .SISSignatureCertificateChain) controller).2
  | .sign σ, controller => do
    let (dataIndex, controller) := findRemoveElement (LeafClass.id .SISDataIndex) controller
    let chain ← makeChain σ (.plain .SISController controller)
    match dataIndex with
    | none => .error .nullField
    | some dataIndex => .ok (controller ++ [chain] ++ [dataIndex])

/-- `updateChecksum` on the controller checksum, which is put first if there is none. -/
def setControllerChecksum (cController : SISCompressed) (contents : List SISField) :
    Res (List SISField) := do
  let compressedData ← (SISField.leaf (.SISCompressed cController)).headerData
  let csum := SISField.leaf (.SISControllerChecksum (crcSlow compressedData compressedData.length))
  match findElement (LeafClass.id .SISControllerChecksum) contents with
  | some _ => .ok (updateElement csum contents)
  | none => .ok (addElementAt csum 0 contents)

/-- The data checksum, which is only added, as the second element.  `main` never calls `crcInit`. -/
def addDataChecksum (contents : List SISField) : Res (List SISField) :=
  match findElement (LeafClass.id .SISDataChecksum) contents with
  | some _ => .ok contents
  | none =>
    match findElement (PlainClass.id .SISData) contents with
    | none => .ok contents
    | some data => do
      let dataContent ← data.headerData
      .ok (addElementAt (.leaf (.SISDataChecksum
        (crcFast crcTableUnset dataContent dataContent.length))) 1 contents)

/-- `main`: the file that is written. -/
def signsis (z : Zlib) (mode : SignsisMode) (file : Bytes) : Res Bytes := do
  let sis ← readController z file
  let controller ← changeController mode sis.controller
  let iField := Child.field (.plain .SISController controller)
  let cController ← sis.cController.LoadUncompressed (some iField)
  let cController ← cController.Compress z sis.algorithm (some iField)
  let contents := updateElement (.leaf (.SISCompressed cController)) sis.contents
  let contents ← setControllerChecksum cController contents
  let contents ← addDataChecksum contents
  let data ← (SISField.plain .SISContents contents).headerData
  .ok (sis.header ++ data)

/-- A file and the controller in it whose sizes fit the 32 bits of their reader. -/
def SmallSis (file : Bytes) : Prop :=
  file.length < 2 ^ 32 ∧ ∀ header contents c, loadSISFile file = .ok (header, contents) →
    findElement (LeafClass.id .SISCompressed) contents = some (.leaf (.SISCompressed c)) →
    c.iUncompressedSize.toNat < 2 ^ 32

/-! ### What a run leaves in the file -/

section
variable {z : Zlib} {file file' : Bytes} {before after : SISFile}

theorem loadSISFile_sound {header : Bytes} {contents : List SISField}
    (h : loadSISFile file = .ok (header, contents)) : header.length = 16 ∧ SoundAll contents := by
  obtain ⟨hd, hhd, h⟩ := bind_eq_ok.mp h
  obtain ⟨⟨field, next⟩, hload, h⟩ := bind_eq_ok.mp h
  simp only at h
  split at h
  · cases h
  · cases h
    refine ⟨?_, loadOneField_sound false _ hload⟩
    unfold copyMem at hhd
    split at hhd
    · cases hhd
    · next hlen =>
      cases hhd
      exact List.length_take_of_le (by simpa using hlen)
  · cases h

/-- A file that is written is read back unless it is too long. -/
theorem loadSISFile_written {header data : Bytes} {contents : List SISField} (hlen : header.length = 16)
    (hs : SoundAll contents) (hdata : (SISField.plain .SISContents contents).headerData = .ok data)
    (hlt : (header ++ data).length < 2 ^ 32) :
    loadSISFile (header ++ data) = .ok (header, rereadAll contents) := by
  obtain ⟨rfl, -⟩ := SISField.headerData_eq hdata
  have hload := loadOneField_copyHeaderData false [] (f := .plain .SISContents contents)
    (n := loadFuel (SISField.plain .SISContents contents).copyHeaderData) hs
    (lt_of_le_of_lt (by simp) hlt) le_rfl (by simp [loadFuel])
  rw [List.append_nil] at hload
  rw [loadSISFile, Nat.mod_eq_of_lt hlt, List.take_length]
  simp only [copyMem_append _ hlen, ok_bind, List.drop_left' hlen, loadBuffer, hload]
  rfl

variable {contents contents' : List SISField}

theorem loadSISFile_write {header header' data : Bytes} (hlen : header.length = 16) (hs : SoundAll contents)
    (hdata : (SISField.plain .SISContents contents).headerData = .ok data)
    (h : loadSISFile (header ++ data) = .ok (header', contents')) :
    (header ++ data).length < 2 ^ 32 ∧ header' = header ∧ contents' = rereadAll contents := by
  by_cases hlt : (header ++ data).length < 2 ^ 32
  · rw [loadSISFile_written hlen hs hdata hlt] at h
    cases h
    exact ⟨hlt, rfl, rfl⟩
  · have hle : data.length ≤ 2 ^ 32 + 4 := by
      obtain ⟨rfl, hl⟩ := SISField.headerData_eq hdata
      rw [hl]
      exact headerDataLength_plain_le _ _
    obtain ⟨hd, -, h⟩ := bind_eq_ok.mp h
    obtain ⟨⟨field, next⟩, hload, h⟩ := bind_eq_ok.mp h
    simp only at h
    split at h
    · cases h
    · refine absurd hload (loadOneField_short ?_)
      rw [List.length_drop, List.length_take]
      rw [List.length_append] at hlt ⊢
      omega
    · cases h

theorem readController_load {sis : SISFile} (h : readController z file = .ok sis) :
    loadSISFile file = .ok (sis.header, sis.contents) := by
  obtain ⟨⟨header, contents⟩, hload, h⟩ := bind_eq_ok.mp h
  simp only at h
  split at h
  · obtain ⟨c', -, h⟩ := bind_eq_ok.mp h
    obtain ⟨⟨field, c''⟩, -, h⟩ := bind_eq_ok.mp h
    simp only at h
    split at h
    · cases h
    · cases h
      exact hload
    · cases h
  · cases h

theorem readController_sound {sis : SISFile} (h : readController z file = .ok sis) :
    sis.header.length = 16 ∧ SoundAll sis.contents ∧ SoundAll sis.controller ∧
      findElement (LeafClass.id .SISCompressed) sis.contents = some (.leaf (.SISCompressed sis.cController)) := by
  obtain ⟨⟨header, contents⟩, hload, h⟩ := bind_eq_ok.mp h
  obtain ⟨hlen, hs⟩ := loadSISFile_sound hload
  simp only at h
  split at h
  · next c hfind =>
    obtain ⟨c', -, h⟩ := bind_eq_ok.mp h
    obtain ⟨⟨field, c''⟩, hchild, h⟩ := bind_eq_ok.mp h
    simp only at h
    split at h
    · cases h
    · cases h
      obtain ⟨⟨field', next⟩, hone, hchild⟩ := bind_eq_ok.mp hchild
      cases hchild
      exact ⟨hlen, hs, loadOneField_sound false _ hone, hfind⟩
    · cases h
  · cases h

section
variable {header data d : Bytes} {contents controller : List SISField} {c : SISCompressed}

theorem readController_written (hlen : header.length = 16) (hs : SoundAll contents) (hcs : SoundAll controller)
    (hfind : findElement (LeafClass.id .SISCompressed) contents = some (.leaf (.SISCompressed c)))
    (hd : (SISField.plain .SISController controller).headerData = .ok d) (hc : c.Holds z d)
    (hdata : (SISField.plain .SISContents contents).headerData = .ok data)
    (hlt : (header ++ data).length < 2 ^ 32) (hdlt : d.length < 2 ^ 32) :
    readController z (header ++ data) = .ok ⟨header, rereadAll contents, c, rereadAll controller⟩ := by
  obtain ⟨c', hc', hu, hsize, -⟩ := hc.uncompress
  obtain ⟨rfl, -⟩ := SISField.headerData_eq hd
  have hload := loadOneField_copyHeaderData false [] (f := .plain .SISController controller)
    (n := loadFuel (SISField.plain .SISController controller).copyHeaderData) hcs hdlt le_rfl (by simp [loadFuel])
  rw [List.append_nil] at hload
  rw [readController, loadSISFile_written hlen hs hdata hlt, ok_bind]
  simp only [findElement_rereadAll, hfind, Option.map_some, SISField.reread, Leaf.reread, hc', ok_bind,
    SISCompressed.LoadChild, hu, Option.getD_some, hsize, Nat.mod_eq_of_lt hdlt, hload]

theorem readController_write {sis : SISFile} (hlen : header.length = 16) (hs : SoundAll contents)
    (hcs : SoundAll controller)
    (hfind : findElement (LeafClass.id .SISCompressed) contents = some (.leaf (.SISCompressed c)))
    (hd : (SISField.plain .SISController controller).headerData = .ok d) (hc : c.Holds z d)
    (hdata : (SISField.plain .SISContents contents).headerData = .ok data)
    (h : readController z (header ++ data) = .ok sis) :
    (header ++ data).length < 2 ^ 32 ∧ d.length < 2 ^ 32 ∧
      sis = ⟨header, rereadAll contents, c, rereadAll controller⟩ := by
  obtain ⟨⟨header', contents'⟩, hload, h⟩ := bind_eq_ok.mp h
  obtain ⟨hlt, rfl, rfl⟩ := loadSISFile_write hlen hs hdata hload
  obtain ⟨c', hc', hu, hsize, -⟩ := hc.uncompress
  simp only at h
  rw [findElement_rereadAll, hfind] at h
  simp only [Option.map_some, SISField.reread, Leaf.reread, hc', ok_bind] at h
  obtain ⟨⟨field, c''⟩, hchild, h⟩ := bind_eq_ok.mp h
  simp only at h
  split at h
  · cases h
  · cases h
    obtain ⟨hdlt, hf⟩ := SISCompressed.loadChild_headerData hcs hd hu hsize hchild
    cases hf
    exact ⟨hlt, hdlt, rfl⟩
  · cases h

end

/-- A controller that was changed is still sound. -/
theorem changeController_sound {mode : SignsisMode} {controller controller' : List SISField}
    (hs : SoundAll controller) (h : changeController mode controller = .ok controller') :
    SoundAll controller' := by
  rw [soundAll_iff] at hs ⊢
  cases mode with
  | remove =>
    cases h
    intro g hg
    exact hs g (findRemoveLastElement_subset hg)
  | sign σ =>
    obtain ⟨hrest, hfirst⟩ := findRemoveElement_subset (LeafClass.id .SISDataIndex) controller
    obtain ⟨chain, hchain, h⟩ := bind_eq_ok.mp h
    split at h
    · cases h
    · next dataIndex hdi =>
      cases h
      intro g hg
      simp only [List.append_assoc, List.mem_append, List.mem_singleton] at hg
      rcases hg with hg | rfl | rfl
      · exact hs g (hrest g hg)
      · exact (makeChain_signedOver hchain).2.sound
      · exact hs _ (hfirst _ hdi)

theorem soundAll_updateElement {f : SISField} {fs : List SISField} (hf : f.Sound) (hs : SoundAll fs) :
    SoundAll (updateElement f fs) := by
  rw [soundAll_iff] at hs ⊢
  intro g hg
  rcases mem_updateElement hg with rfl | hg
  · exact hf
  · exact hs g hg

theorem soundAll_addElementAt {f : SISField} {aPos : ℕ} {fs : List SISField} (hf : f.Sound) (hs : SoundAll fs) :
    SoundAll (addElementAt f aPos fs) := by
  rw [soundAll_iff] at hs ⊢
  intro g hg
  rcases mem_addElementAt hg with rfl | hg
  · exact hf
  · exact hs g hg

theorem setControllerChecksum_spec {c : SISCompressed}
    (hs : SoundAll contents) (h : setControllerChecksum c contents = .ok contents') :
    SoundAll contents' ∧ ∀ aType, aType ≠ LeafClass.id .SISControllerChecksum →
      findElement aType contents' = findElement aType contents := by
  obtain ⟨b, -, h⟩ := bind_eq_ok.mp h
  simp only at h
  split at h
  · cases h
    exact ⟨soundAll_updateElement trivial hs, fun aType ht => findElement_updateElement_of_ne _ (Ne.symm ht)⟩
  · cases h
    exact ⟨soundAll_addElementAt trivial hs, fun aType ht => findElement_addElementAt_of_ne (Ne.symm ht) _ _⟩

theorem addDataChecksum_spec (hs : SoundAll contents) (h : addDataChecksum contents = .ok contents') :
    SoundAll contents' ∧ ∀ aType, aType ≠ LeafClass.id .SISDataChecksum →
      findElement aType contents' = findElement aType contents := by
  unfold addDataChecksum at h
  split at h
  · cases h
    exact ⟨hs, fun _ _ => rfl⟩
  · split at h
    · cases h
      exact ⟨hs, fun _ _ => rfl⟩
    · obtain ⟨b, -, h⟩ := bind_eq_ok.mp h
      cases h
      exact ⟨soundAll_addElementAt trivial hs, fun aType ht => findElement_addElementAt_of_ne (Ne.symm ht) _ _⟩

/-- A run on a file that can be read. -/
theorem signsis_eq {mode : SignsisMode} (hbefore : readController z file = .ok before) :
    signsis z mode file = (do
      let controller ← changeController mode before.controller
      let d ← (SISField.plain .SISController controller).headerData
      let c := SISCompressed.packed z (SISCompressed.chosen z before.algorithm d) d
      let contents ← setControllerChecksum c (updateElement (.leaf (.SISCompressed c)) before.contents)
      let written ← addDataChecksum contents
      let data ← (SISField.plain .SISContents written).headerData
      .ok (before.header ++ data)) := by
  rw [signsis, hbefore, ok_bind]
  cases hchange : changeController mode before.controller with
  | error e => rfl
  | ok controller =>
    simp only [ok_bind]
    cases hd : (SISField.plain .SISController controller).headerData with
    | error e => simp only [SISCompressed.LoadUncompressed, Child.headerData, hd, error_bind]
    | ok d =>
      have hd64 : d.length < 2 ^ 64 := by
        obtain ⟨rfl, hl⟩ := SISField.headerData_eq hd
        have := headerDataLength_plain_le .SISController controller
        omega
      have hpack := SISCompressed.loadUncompressed_compress (z := z) (c := before.cController)
        (f := .field (.plain .SISController controller)) before.algorithm hd hd64
      rw [← bind_assoc, hpack]
      rfl

/-- The steps of a run: the compressed controller it puts into the contents, and the checksums after it. -/
theorem signsis_steps {mode : SignsisMode} (hbefore : readController z file = .ok before)
    (h : signsis z mode file = .ok file') :
    ∃ controller c d contents written data, changeController mode before.controller = .ok controller ∧
      (SISField.plain .SISController controller).headerData = .ok d ∧ c.Holds z d ∧
      c = SISCompressed.packed z (SISCompressed.chosen z before.algorithm d) d ∧
      setControllerChecksum c (updateElement (.leaf (.SISCompressed c)) before.contents) = .ok contents ∧
      addDataChecksum contents = .ok written ∧
      (SISField.plain .SISContents written).headerData = .ok data ∧ file' = before.header ++ data := by
  rw [signsis_eq hbefore] at h
  obtain ⟨controller, hchange, h⟩ := bind_eq_ok.mp h
  obtain ⟨d, hd, h⟩ := bind_eq_ok.mp h
  obtain ⟨contents, hset, h⟩ := bind_eq_ok.mp h
  obtain ⟨written, hadd, h⟩ := bind_eq_ok.mp h
  obtain ⟨data, hdata, h⟩ := bind_eq_ok.mp h
  cases h
  have hd64 : d.length < 2 ^ 64 := by
    obtain ⟨rfl, hl⟩ := SISField.headerData_eq hd
    have := headerDataLength_plain_le .SISController controller
    omega
  exact ⟨controller, _, d, contents, written, data, hchange, hd, SISCompressed.packed_holds _ hd64, rfl, hset,
    hadd, hdata, rfl⟩

theorem updateController {c : SISCompressed} {d : Bytes} (hbefore : readController z file = .ok before)
    (hholds : c.Holds z d) :
    SoundAll (updateElement (.leaf (.SISCompressed c)) before.contents) ∧
      findElement (LeafClass.id .SISCompressed) (updateElement (.leaf (.SISCompressed c)) before.contents) =
        some (.leaf (.SISCompressed c)) := by
  obtain ⟨-, hs, -, hfind⟩ := readController_sound hbefore
  refine ⟨soundAll_updateElement hholds.settled hs, ?_⟩
  exact findElement_updateElement (f := SISField.leaf (.SISCompressed c)) (by
    change (findElement (LeafClass.id .SISCompressed) before.contents).isSome
    rw [hfind]
    rfl)

/-- Every controller checksum is written in twelve bytes. -/
theorem length_controllerChecksum {f : SISField} (h : f.id = LeafClass.id .SISControllerChecksum) :
    f.copyHeaderData.length = 12 := by
  have hcls : some f.cls = some (.leaf .SISControllerChecksum) := by
    rw [← newObject_id f.cls]
    exact congrArg newObject h
  rcases f with l | _ | c
  · cases l <;> cases hcls
    rfl
  · cases hcls
  · cases hcls

/-- What the elements of the contents take in a file, with a place for the checksums that a run adds. -/
def contentsRoom (contents : List SISField) : ℕ :=
  (copyElements contents).length +
    (if (findElement (LeafClass.id .SISControllerChecksum) contents).isSome then 0 else 12) +
    (if (findElement (LeafClass.id .SISDataChecksum) contents).isSome ∨
      (findElement (PlainClass.id .SISData) contents).isNone then 0 else 12)

theorem contentsRoom_rereadAll (contents : List SISField) :
    contentsRoom (rereadAll contents) = contentsRoom contents := by
  simp only [contentsRoom, findElement_rereadAll, Option.isSome_map, Option.isNone_map,
    (rereadAll_writes contents).2.2.2]

theorem contentsRoom_updateElement {c old : SISCompressed} {contents : List SISField}
    (h : findElement (LeafClass.id .SISCompressed) contents = some (.leaf (.SISCompressed old))) :
    contentsRoom (updateElement (.leaf (.SISCompressed c)) contents) +
        (SISField.leaf (.SISCompressed old)).copyHeaderData.length =
      contentsRoom contents + (SISField.leaf (.SISCompressed c)).copyHeaderData.length := by
  have hlen := length_updateElement (f := .leaf (.SISCompressed c)) h
  have hfind (aType : UInt32) (hne : LeafClass.id .SISCompressed ≠ aType) :=
    findElement_updateElement_of_ne (f := .leaf (.SISCompressed c)) contents hne
  rw [contentsRoom, contentsRoom, hfind _ (by decide), hfind _ (by decide), hfind _ (by decide)]
  omega

theorem contentsRoom_setControllerChecksum {c : SISCompressed}
    (h : setControllerChecksum c contents = .ok contents') : contentsRoom contents' = contentsRoom contents ∧
      (findElement (LeafClass.id .SISControllerChecksum) contents').isSome := by
  obtain ⟨b, -, h⟩ := bind_eq_ok.mp h
  obtain ⟨csum, hid, h⟩ : ∃ csum : SISField, csum.id = LeafClass.id .SISControllerChecksum ∧
      (match findElement (LeafClass.id .SISControllerChecksum) contents with
        | some _ => .ok (updateElement csum contents)
        | none => .ok (addElementAt csum 0 contents)) = (.ok contents' : Res (List SISField)) := ⟨_, rfl, h⟩
  split at h
  · next old hold =>
    cases h
    have hoid : old.id = LeafClass.id .SISControllerChecksum := by simpa using List.find?_some hold
    have hlen := length_updateElement (f := csum) (hid ▸ hold)
    rw [length_controllerChecksum hoid, length_controllerChecksum hid] at hlen
    have hfound := findElement_updateElement (f := csum) (hid ▸ Option.isSome_of_eq_some hold)
    have hfind (aType : UInt32) (hne : LeafClass.id .SISControllerChecksum ≠ aType) :=
      findElement_updateElement_of_ne (f := csum) contents (hid ▸ hne)
    rw [hid] at hfound
    refine ⟨?_, Option.isSome_of_eq_some hfound⟩
    rw [contentsRoom, contentsRoom, hfind (LeafClass.id .SISDataChecksum) (by decide),
      hfind (PlainClass.id .SISData) (by decide), hfound, hold, Nat.add_right_cancel hlen]
    rfl
  · next hnone =>
    cases h
    have hfound := findElement_addElementAt_zero (f := csum) contents
    have hfind (aType : UInt32) (hne : LeafClass.id .SISControllerChecksum ≠ aType) :=
      findElement_addElementAt_of_ne (f := csum) (hid ▸ hne) 0 contents
    rw [hid] at hfound
    refine ⟨?_, Option.isSome_of_eq_some hfound⟩
    rw [contentsRoom, contentsRoom, hfind (LeafClass.id .SISDataChecksum) (by decide),
      hfind (PlainClass.id .SISData) (by decide), hfound, hnone, length_addElementAt _ (Nat.zero_le _),
      length_controllerChecksum hid]
    simp only [Option.isSome_none, Option.isSome_some, Bool.false_eq_true, if_false, if_true]
    omega

theorem contentsRoom_addDataChecksum (hne : contents ≠ [])
    (hcsum : (findElement (LeafClass.id .SISControllerChecksum) contents).isSome)
    (h : addDataChecksum contents = .ok contents') : (copyElements contents').length = contentsRoom contents ∧
      contentsRoom contents' = contentsRoom contents := by
  unfold addDataChecksum at h
  split at h
  · next hdcsum =>
    cases h
    simp [contentsRoom, hcsum, hdcsum]
  · next hnone =>
    split at h
    · next hdata =>
      cases h
      simp [contentsRoom, hcsum, hdata]
    · next data hdata =>
      obtain ⟨b, -, h⟩ := bind_eq_ok.mp h
      obtain ⟨dcsum, hid, h12, h⟩ : ∃ dcsum : SISField, dcsum.id = LeafClass.id .SISDataChecksum ∧
          dcsum.copyHeaderData.length = 12 ∧
          Except.ok (addElementAt dcsum 1 contents) = (.ok contents' : Res (List SISField)) := ⟨_, rfl, rfl, h⟩
      cases h
      have hfound := findElement_addElementAt_one (f := dcsum) hne (hid ▸ hnone)
      have hfind (aType : UInt32) (ht : LeafClass.id .SISDataChecksum ≠ aType) :=
        findElement_addElementAt_of_ne (f := dcsum) (hid ▸ ht) 1 contents
      rw [hid] at hfound
      rw [contentsRoom, contentsRoom, hfind (LeafClass.id .SISControllerChecksum) (by decide),
        hfind (PlainClass.id .SISData) (by decide), hfound, hnone, hdata, if_pos hcsum,
        length_addElementAt _ (List.length_pos_iff.mpr hne), h12]
      simp only [Option.isSome_none, Option.isSome_some, Option.isNone_some, Bool.false_eq_true, or_false,
        if_true, if_false]
      omega

/-- A field of less than `2 ^ 32` bytes fills its buffer. -/
theorem SISField.headerData_of_lt {f : SISField} (hs : f.Sound) (hlt : f.copyHeaderData.length < 2 ^ 32) :
    f.headerData = .ok f.copyHeaderData :=
  if_pos (SISField.length_copyHeaderData hs hlt).2

theorem length_contents {contents : List SISField} (hs : SoundAll contents)
    (hlt : (copyElements contents).length + 8 < 2 ^ 32) :
    (SISField.plain .SISContents contents).copyHeaderData.length = (copyElements contents).length + 8 := by
  have hfield : (SISField.plain .SISContents contents).copyFieldData = copyElements contents :=
    List.append_nil _
  have hmod := sumCompound_mod contents
  rw [sumCompound_eq hs (by omega)] at hmod
  have hlen := SISField.length_copyFieldData (f := .plain .SISContents contents) hs (by rw [hfield]; omega)
  rw [SISField.copyHeaderData, length_copyHeader hlen, hfield, paddedLength, padding_of_mod hmod]

/-- The bytes of a compressed controller with its header. -/
def SISCompressed.storedSize (c : SISCompressed) : ℕ := (SISField.leaf (.SISCompressed c)).copyHeaderData.length

/-- The file has `n` bytes of contents beside its compressed controller, with the checksums that a run adds. -/
def SISFile.Beside (n : ℕ) (sis : SISFile) : Prop := contentsRoom sis.contents = n + sis.cController.storedSize

theorem readController_beside {sis : SISFile} (h : readController z file = .ok sis) : ∃ n, sis.Beside n := by
  obtain ⟨-, -, -, hfind⟩ := readController_sound h
  have hle : sis.cController.storedSize ≤ _ := length_le_copyElements (List.mem_of_find?_eq_some hfind)
  refine ⟨contentsRoom sis.contents - sis.cController.storedSize, (Nat.sub_add_cancel ?_).symm⟩
  rw [contentsRoom]
  omega

section
variable {mode : SignsisMode} {n : ℕ} {c : SISCompressed} {contents written controller : List SISField} {d : Bytes}

/-- What the two checksum steps leave: only the bytes of the controller change. -/
theorem checksums_written (hbefore : readController z file = .ok before) (hn : before.Beside n)
    (hholds : c.Holds z d)
    (hset : setControllerChecksum c (updateElement (.leaf (.SISCompressed c)) before.contents) = .ok contents) :
    SoundAll contents ∧
      findElement (LeafClass.id .SISCompressed) contents = some (.leaf (.SISCompressed c)) ∧
      contentsRoom contents = n + c.storedSize ∧
      ∀ {written}, addDataChecksum contents = .ok written → SoundAll written ∧
        findElement (LeafClass.id .SISCompressed) written = some (.leaf (.SISCompressed c)) ∧
        (copyElements written).length = n + c.storedSize ∧ contentsRoom written = n + c.storedSize := by
  obtain ⟨hsu, hfu⟩ := updateController hbefore hholds
  obtain ⟨hs₁, hfind₁⟩ := setControllerChecksum_spec hsu hset
  obtain ⟨-, -, -, hfind⟩ := readController_sound hbefore
  have hupdate := contentsRoom_updateElement (c := c) hfind
  obtain ⟨hroom, hcsum⟩ := contentsRoom_setControllerChecksum hset
  have hfc : findElement (LeafClass.id .SISCompressed) contents = some (.leaf (.SISCompressed c)) := by
    rw [hfind₁ _ (by decide), hfu]
  have hsize : contentsRoom contents = n + c.storedSize := by
    rw [hn] at hupdate
    rw [hroom]
    change _ + before.cController.storedSize = _ + c.storedSize at hupdate
    omega
  refine ⟨hs₁, hfc, hsize, fun {written} hadd => ?_⟩
  obtain ⟨hs₂, hfind₂⟩ := addDataChecksum_spec hs₁ hadd
  have hne : contents ≠ [] := by
    rintro rfl
    cases hfc
  obtain ⟨hlen, hsame⟩ := contentsRoom_addDataChecksum hne hcsum hadd
  exact ⟨hs₂, by rw [hfind₂ _ (by decide), hfc], by rw [hlen, hsize], by rw [hsame, hsize]⟩

/-- **A run completes.**  Where the controller and the file fit 32 bits, the file it leaves is read back as the changed
elements, stored under one of the two algorithms. -/
theorem signsis_completes (hbefore : readController z file = .ok before) (hn : before.Beside n)
    (hchange : changeController mode before.controller = .ok controller)
    (hd : (SISField.plain .SISController controller).copyHeaderData = d) (hdlt : d.length < 2 ^ 32)
    (hfit : n + (SISCompressed.packed z (SISCompressed.chosen z before.algorithm d) d).storedSize + 24 < 2 ^ 32) :
    ∃ file' after, signsis z mode file = .ok file' ∧ readController z file' = .ok after ∧ after.Beside n ∧
      after.controller = rereadAll controller ∧
      after.cController = SISCompressed.packed z (SISCompressed.chosen z before.algorithm d) d := by
  obtain ⟨hlen, -, hcs, -⟩ := readController_sound hbefore
  have hcs' := changeController_sound hcs hchange
  subst hd
  have hdata := SISField.headerData_of_lt (f := .plain .SISController controller) hcs' hdlt
  generalize (SISField.plain .SISController controller).copyHeaderData = d at hdata hdlt hfit ⊢
  have hholds := SISCompressed.packed_holds (z := z) (SISCompressed.chosen z before.algorithm d)
    (lt_trans hdlt (by decide : 2 ^ 32 < 2 ^ 64))
  rw [signsis_eq hbefore, hchange, ok_bind, hdata, ok_bind]
  dsimp only
  generalize SISCompressed.packed z (SISCompressed.chosen z before.algorithm d) d = c at hholds hfit ⊢
  obtain ⟨contents, hset⟩ : ∃ contents,
      setControllerChecksum c (updateElement (.leaf (.SISCompressed c)) before.contents) = .ok contents := by
    rw [setControllerChecksum, SISField.headerData_of_lt (f := .leaf (.SISCompressed c)) hholds.settled
      (by change c.storedSize < _; omega), ok_bind]
    split
    · exact ⟨_, rfl⟩
    · exact ⟨_, rfl⟩
  obtain ⟨hs₁, -, hsize, hwritten⟩ := checksums_written hbefore hn hholds hset
  obtain ⟨written, hadd⟩ : ∃ written, addDataChecksum contents = .ok written := by
    unfold addDataChecksum
    split
    · exact ⟨_, rfl⟩
    · split
      · exact ⟨_, rfl⟩
      · next data hfind =>
        have hmem := List.mem_of_find?_eq_some hfind
        have hle := length_le_copyElements hmem
        rw [contentsRoom] at hsize
        rw [SISField.headerData_of_lt (soundAll_iff.mp hs₁ _ hmem) (by omega)]
        exact ⟨_, rfl⟩
  obtain ⟨hs₂, hfind, hcount, hroom⟩ := hwritten hadd
  have hlength := length_contents hs₂ (by omega)
  have hbytes := SISField.headerData_of_lt (f := .plain .SISContents written) hs₂ (by omega)
  refine ⟨_, _, by rw [hset, ok_bind, hadd, ok_bind, hbytes]; rfl, readController_written hlen hs₂ hcs' hfind hdata hholds
    hbytes (by rw [List.length_append]; omega) hdlt, ?_, rfl, rfl⟩
  exact (contentsRoom_rereadAll written).trans hroom

/-- **One run.**  What it leaves, where that can be read. -/
theorem signsis_read (hbefore : readController z file = .ok before) (hn : before.Beside n)
    (h : signsis z mode file = .ok file') :
    ∃ controller d c, changeController mode before.controller = .ok controller ∧
      (SISField.plain .SISController controller).copyHeaderData = d ∧
      c = SISCompressed.packed z (SISCompressed.chosen z before.algorithm d) d ∧
      (SmallSis file' → ∃ after, readController z file' = .ok after) ∧
      ∀ {after}, readController z file' = .ok after → d.length < 2 ^ 32 ∧ n + c.storedSize + 24 < 2 ^ 32 ∧
        after.Beside n ∧ after.controller = rereadAll controller ∧ after.cController = c := by
  obtain ⟨hlen, -, hcs, -⟩ := readController_sound hbefore
  obtain ⟨controller, c, d, contents, written, data, hchange, hd, hholds, hc, hset, hadd, hdata, rfl⟩ :=
    signsis_steps hbefore h
  obtain ⟨-, -, -, hwritten⟩ := checksums_written hbefore hn hholds hset
  obtain ⟨hs₂, hfind, hcount, hroom⟩ := hwritten hadd
  have hcs' := changeController_sound hcs hchange
  refine ⟨controller, d, c, hchange, (SISField.headerData_eq hd).1.symm, hc, fun hsmall => ?_, fun {after} hafter => ?_⟩
  · have hload := loadSISFile_written hlen hs₂ hdata hsmall.1
    have hsize := hsmall.2 _ _ c hload (by rw [findElement_rereadAll, hfind]; rfl)
    rw [hholds.1] at hsize
    exact ⟨_, readController_written hlen hs₂ hcs' hfind hd hholds hdata hsmall.1 hsize⟩
  · obtain ⟨hlt, hdlt, rfl⟩ := readController_write hlen hs₂ hcs' hfind hd hholds hdata hafter
    refine ⟨hdlt, ?_, (contentsRoom_rereadAll written).trans hroom, rfl, rfl⟩
    obtain ⟨rfl, -⟩ := SISField.headerData_eq hdata
    have hle := length_le_copyData (SISField.plain .SISContents written).length (copyElements written)
    have hfield : (SISField.plain .SISContents written).copyFieldData = copyElements written := List.append_nil _
    simp only [List.length_append, SISField.copyHeaderData, copyHeader, length_writeUint32, hfield] at hlt
    omega

end

end

/-! ### Removal undoes signing -/

/-- The controller's only data index is its last element. -/
def EndsWithDataIndex (controller : List SISField) : Prop :=
  ∃ pre dataIndex, controller = pre ++ [dataIndex] ∧ dataIndex.id = LeafClass.id .SISDataIndex ∧
    ∀ f ∈ pre, f.id ≠ LeafClass.id .SISDataIndex

/-- The files left by signing once with each of `signers`. -/
def signings (z : Zlib) : List Signer → Bytes → Res Bytes
  | [], file => .ok file
  | σ :: signers, file => do
    let file ← signsis z (.sign σ) file
    signings z signers file

/-- The file left by `n` runs of `signsis -u`. -/
def removals (z : Zlib) : ℕ → Bytes → Res Bytes
  | 0, file => .ok file
  | n + 1, file => do
    let file ← removals z n file
    signsis z .remove file

theorem changeController_sign {σ : Signer} {pre controller : List SISField} {dataIndex : SISField}
    (hpre : ∀ f ∈ pre, f.id ≠ LeafClass.id .SISDataIndex)
    (hdi : dataIndex.id = LeafClass.id .SISDataIndex)
    (h : changeController (.sign σ) (pre ++ [dataIndex]) = .ok controller) :
    ∃ chain, SignedOver σ (SISField.plain .SISController pre).copyFieldData chain ∧
      controller = pre ++ [chain] ++ [dataIndex] := by
  rw [changeController, findRemoveElement_append [] hpre hdi, List.append_nil] at h
  obtain ⟨chain, hchain, h⟩ := bind_eq_ok.mp h
  cases h
  exact ⟨chain, (makeChain_signedOver hchain).2, rfl⟩

theorem changeController_remove (pre : List SISField) {chain dataIndex : SISField}
    (hc : chain.id = PlainClass.id .SISSignatureCertificateChain)
    (hdi : dataIndex.id = LeafClass.id .SISDataIndex) :
    changeController .remove (pre ++ [chain] ++ [dataIndex]) = .ok (pre ++ [dataIndex]) := by
  have hpost : ∀ g ∈ [dataIndex], g.id ≠ PlainClass.id .SISSignatureCertificateChain := by
    intro g hg
    rw [List.mem_singleton.mp hg, hdi]
    decide
  rw [changeController, List.append_assoc, List.singleton_append,
    findRemoveLastElement_append pre hpost hc]

theorem EndsWithDataIndex.sign {pre : List SISField} {chain dataIndex : SISField}
    (hpre : ∀ f ∈ pre, f.id ≠ LeafClass.id .SISDataIndex)
    (hc : chain.id = PlainClass.id .SISSignatureCertificateChain)
    (hdi : dataIndex.id = LeafClass.id .SISDataIndex) :
    EndsWithDataIndex (pre ++ [chain] ++ [dataIndex]) := by
  refine ⟨pre ++ [chain], dataIndex, rfl, hdi, fun f hf => ?_⟩
  rcases List.mem_append.mp hf with hf | hf
  · exact hpre f hf
  · rw [List.mem_singleton.mp hf, hc]
    decide

theorem EndsWithDataIndex.rereadAll {controller : List SISField} (h : EndsWithDataIndex controller) :
    EndsWithDataIndex (rereadAll controller) := by
  obtain ⟨pre, dataIndex, rfl, hdi, hpre⟩ := h
  refine ⟨Sis.rereadAll pre, dataIndex.reread, by simp [rereadAll_eq_map], by simpa using hdi, ?_⟩
  intro f hf
  rw [rereadAll_eq_map] at hf
  obtain ⟨g, hg, rfl⟩ := List.mem_map.mp hf
  rw [SISField.reread_id]
  exact hpre g hg

section
variable {z : Zlib} {file : Bytes}

theorem readController_of_signsis {mode : SignsisMode} {file' : Bytes}
    (h : signsis z mode file = .ok file') : ∃ sis, readController z file = .ok sis := by
  obtain ⟨sis, hsis, -⟩ := bind_eq_ok.mp h
  exact ⟨sis, hsis⟩

theorem EndsWithDataIndex.signed {σ : Signer} {controller controller' : List SISField}
    (hends : EndsWithDataIndex controller) (h : changeController (.sign σ) controller = .ok controller') :
    EndsWithDataIndex (Sis.rereadAll controller') := by
  obtain ⟨pre, dataIndex, rfl, hdi, hpre⟩ := hends
  obtain ⟨chain, hchain, rfl⟩ := changeController_sign hpre hdi h
  exact (EndsWithDataIndex.sign hpre hchain.id hdi).rereadAll

/-- Removing takes away what signing has added, whatever reading has done to the elements in between. -/
theorem removed_signed {σ : Signer} {controller controller' back : List SISField}
    (hends : EndsWithDataIndex controller) (h : changeController (.sign σ) controller = .ok controller')
    (hback : rereadAll back = rereadAll controller') :
    ∃ removed, changeController .remove back = .ok removed ∧ rereadAll removed = rereadAll controller := by
  obtain ⟨pre, dataIndex, rfl, hdi, hpre⟩ := hends
  obtain ⟨chain, hchain, rfl⟩ := changeController_sign hpre hdi h
  have hr := changeController_remove pre hchain.id hdi
  simp only [changeController, Except.ok.injEq] at hr
  exact ⟨_, rfl, by rw [← findRemoveLastElement_rereadAll, hback, findRemoveLastElement_rereadAll, hr]⟩

/-- Signing leaves the data index last. -/
theorem signings_endsWithDataIndex {signers : List Signer} {signed : Bytes} {before after : SISFile}
    (hbefore : readController z file = .ok before) (hends : EndsWithDataIndex before.controller)
    (h : signings z signers file = .ok signed) (hafter : readController z signed = .ok after) :
    EndsWithDataIndex after.controller := by
  induction signers generalizing file before with
  | nil =>
    cases h
    rw [hbefore] at hafter
    cases hafter
    exact hends
  | cons σ signers ih =>
    obtain ⟨file₁, hsign, h⟩ := bind_eq_ok.mp h
    have hread : ∃ sis, readController z file₁ = .ok sis := by
      cases signers with
      | nil =>
        cases h
        exact ⟨_, hafter⟩
      | cons τ signers =>
        obtain ⟨file₂, hτ, -⟩ := bind_eq_ok.mp h
        exact readController_of_signsis hτ
    obtain ⟨sis, hsis⟩ := hread
    obtain ⟨n, hn⟩ := readController_beside hbefore
    obtain ⟨controller, d, c, hchange, -, -, -, hfacts⟩ := signsis_read hbefore hn hsign
    obtain ⟨-, -, -, hcontroller, -⟩ := hfacts hsis
    refine ih hsis ?_ h
    rw [hcontroller]
    exact hends.signed hchange

/-- Removals after as many signings complete and give back the elements, up to one more reading, and the algorithm. -/
theorem removals_signings {n : ℕ} {d : Bytes} {signers : List Signer} {signed : Bytes} {before : SISFile}
    (hbefore : readController z file = .ok before) (hends : EndsWithDataIndex before.controller)
    (hn : before.Beside n) (hd : (SISField.plain .SISController before.controller).copyHeaderData = d)
    (hdlt : d.length < 2 ^ 32)
    (hfit : ∀ a, a = ECompressNone ∨ a = ECompressDeflate →
      (before.algorithm = ECompressNone ∨ before.algorithm = ECompressDeflate → a = before.algorithm) →
      n + (SISCompressed.packed z a d).storedSize + 24 < 2 ^ 32)
    (hsigned : signings z signers file = .ok signed) (hsmall : SmallSis signed) :
    ∃ restored after, removals z signers.length signed = .ok restored ∧ readController z restored = .ok after ∧
      after.Beside n ∧ rereadAll after.controller = rereadAll before.controller ∧
      (before.algorithm = ECompressNone ∨ before.algorithm = ECompressDeflate → after.algorithm = before.algorithm) ∧
      (signers ≠ [] → after.controller = rereadAll before.controller ∧
        (after.algorithm = ECompressNone ∨ after.algorithm = ECompressDeflate)) := by
  induction signers generalizing file before d with
  | nil =>
    cases hsigned
    exact ⟨_, before, rfl, hbefore, hn, rfl, fun _ => rfl, fun h => absurd rfl h⟩
  | cons σ signers ih =>
    obtain ⟨file₁, hsign, hsigned⟩ := bind_eq_ok.mp hsigned
    obtain ⟨controller, d₁, c₁, hchange, hd₁, hc₁, hreadable, hfacts⟩ := signsis_read hbefore hn hsign
    have hread : ∃ sis, readController z file₁ = .ok sis := by
      cases signers with
      | nil =>
        cases hsigned
        exact hreadable hsmall
      | cons τ signers =>
        obtain ⟨file₂, hτ, -⟩ := bind_eq_ok.mp hsigned
        exact readController_of_signsis hτ
    obtain ⟨sis₁, hsis₁⟩ := hread
    obtain ⟨hdlt₁, hfit₁, hn₁, hcontroller, hcc⟩ := hfacts hsis₁
    have hchosen := SISCompressed.chosen_cases (z := z) before.algorithm d₁
    have halg : sis₁.algorithm = SISCompressed.chosen z before.algorithm d₁ := by
      rw [SISFile.algorithm, hcc, hc₁, SISCompressed.packed_iAlgorithm hchosen]
    have hbytes : (SISField.plain .SISController sis₁.controller).copyHeaderData = d₁ := by
      rw [hcontroller, ← hd₁]
      exact SISField.copyHeaderData_reread (.plain .SISController controller)
    have hends₁ : EndsWithDataIndex sis₁.controller := by
      rw [hcontroller]
      exact hends.signed hchange
    -- the file before the last removal reads like the file after the first signing
    obtain ⟨mid, sismid, hmid, hsismid, hnmid, hback, hkept, -⟩ := ih hsis₁ hends₁ hn₁ hbytes hdlt₁
      (fun a _ ha => by
        rw [ha (halg ▸ hchosen), halg, ← hc₁]
        exact hfit₁) hsigned
    rw [hcontroller, rereadAll_rereadAll] at hback
    obtain ⟨removed, hremove, hsame⟩ := removed_signed hends hchange hback
    have hremoved : (SISField.plain .SISController removed).copyHeaderData = d := by
      rw [← SISField.copyHeaderData_reread, ← hd, ← SISField.copyHeaderData_reread (.plain _ before.controller)]
      exact congrArg (fun fs => (SISField.plain .SISController fs).copyHeaderData) hsame
    have hmidalg : sismid.algorithm = SISCompressed.chosen z before.algorithm d₁ := by
      rw [hkept (halg ▸ hchosen), halg]
    have hagain : SISCompressed.chosen z sismid.algorithm d = SISCompressed.chosen z before.algorithm d₁ := by
      rw [hmidalg]
      exact SISCompressed.chosen_eq_iff.mpr hchosen
    obtain ⟨restored, after, hrun, hafter, hnafter, hctrl, hcafter⟩ := signsis_completes hsismid hnmid hremove hremoved
      hdlt (by
        rw [hagain]
        exact hfit _ hchosen fun hb => SISCompressed.chosen_eq_iff.mpr hb)
    rw [hsame] at hctrl
    have hafteralg : after.algorithm = SISCompressed.chosen z before.algorithm d₁ := by
      rw [SISFile.algorithm, hcafter, hagain, SISCompressed.packed_iAlgorithm hchosen]
    refine ⟨restored, after, by rw [List.length_cons, removals, hmid, ok_bind, hrun], hafter, hnafter, ?_, fun hb => ?_,
      fun _ => ⟨hctrl, hafteralg ▸ hchosen⟩⟩
    · rw [hctrl, rereadAll_rereadAll]
    · rw [hafteralg]
      exact SISCompressed.chosen_eq_iff.mpr hb

/-- The elements of a file whose controller is stored under an algorithm. -/
def SISFile.repacked (z : Zlib) (aAlgorithm : UInt32) (sis : SISFile) : List SISField :=
  updateElement (.leaf (.SISCompressed
    (SISCompressed.packed z aAlgorithm (SISField.plain .SISController sis.controller).copyHeaderData))) sis.contents

/-- **Signing and removing.**  After `signers`, any further signings are undone by as many removals: these complete and
leave the elements of the earlier file, as they are read back, the data index last.  The file is the earlier one exactly
when its capability blobs are whole words and its algorithm is one of the two that `Compress` writes, which are also the
ones that a run keeps. -/
theorem signings_removals {signers : List Signer} {σ : Signer} {later : List Signer}
    {earlier signed : Bytes} {before mid : SISFile}
    (hbefore : readController z file = .ok before) (hends : EndsWithDataIndex before.controller)
    (hearlier : signings z signers file = .ok earlier) (hmid : readController z earlier = .ok mid)
    (hsigned : signings z (σ :: later) earlier = .ok signed) (hsmall : SmallSis signed)
    (hroom : ∀ a, a = ECompressNone ∨ a = ECompressDeflate →
      (copyElements (mid.repacked z a)).length + 48 < 2 ^ 32) :
    (∃ restored after, removals z (later.length + 1) signed = .ok restored ∧
      readController z restored = .ok after ∧ after.controller = rereadAll mid.controller ∧
      EndsWithDataIndex after.controller ∧
      (after.controller = mid.controller ∧ after.algorithm = mid.algorithm ↔
        ExactAll mid.controller ∧ (mid.algorithm = ECompressNone ∨ mid.algorithm = ECompressDeflate))) ∧
      ∀ mode f f' a b, signsis z mode f = .ok f' → readController z f = .ok a →
        readController z f' = .ok b →
        (b.algorithm = a.algorithm ↔ a.algorithm = ECompressNone ∨ a.algorithm = ECompressDeflate) := by
  have hmidends := signings_endsWithDataIndex hbefore hends hearlier hmid
  obtain ⟨n, hn⟩ := readController_beside hmid
  obtain ⟨-, -, -, hfind⟩ := readController_sound hmid
  generalize hd : (SISField.plain .SISController mid.controller).copyHeaderData = d
  have hfit (a : UInt32) (ha : a = ECompressNone ∨ a = ECompressDeflate) :
      n + (SISCompressed.packed z a d).storedSize + 24 < 2 ^ 32 := by
    have hupdate := contentsRoom_updateElement (c := SISCompressed.packed z a d) hfind
    have hlt := hroom a ha
    rw [SISFile.repacked, hd] at hlt
    rw [hn, contentsRoom] at hupdate
    change _ + mid.cController.storedSize = _ + (SISCompressed.packed z a d).storedSize at hupdate
    split at hupdate <;> split at hupdate <;> omega
  have hdlt : d.length < 2 ^ 32 := by
    have hnone := hfit _ (Or.inl rfl)
    have hle := length_le_copyData (SISField.leaf (.SISCompressed (SISCompressed.packed z ECompressNone d))).length
      (SISField.leaf (.SISCompressed (SISCompressed.packed z ECompressNone d))).copyFieldData
    have hstored : d.length ≤
        (SISField.leaf (.SISCompressed (SISCompressed.packed z ECompressNone d))).copyFieldData.length := by
      simp [SISField.copyFieldData, Leaf.copyFieldData, SISCompressed.packed, SISCompressed.stored, ECompressNone,
        ECompressDeflate, ← Nat.add_assoc]
    rw [SISCompressed.storedSize, SISField.copyHeaderData, copyHeader, List.length_append] at hnone
    omega
  obtain ⟨restored, after, hrun, hafter, -, -, hkept, hlast⟩ := removals_signings hmid hmidends hn hd hdlt
    (fun a ha _ => hfit a ha) hsigned hsmall
  obtain ⟨hcontroller, halg⟩ := hlast (List.cons_ne_nil _ _)
  refine ⟨⟨restored, after, hrun, hafter, hcontroller, hcontroller ▸ hmidends.rereadAll, ?_, ?_⟩, ?_⟩
  · rintro ⟨hc, ha⟩
    exact ⟨hc ▸ hcontroller ▸ rereadAll_exact mid.controller, ha ▸ halg⟩
  · rintro ⟨hexact, ha⟩
    exact ⟨hcontroller.trans (rereadAll_of_exact hexact), hkept ha⟩
  · intro mode f f' a b hsis ha hb
    obtain ⟨m, hm⟩ := readController_beside ha
    obtain ⟨controller, d', c, -, -, hc, -, hfacts⟩ := signsis_read ha hm hsis
    obtain ⟨-, -, -, -, hbc⟩ := hfacts hb
    rw [SISFile.algorithm, hbc, hc, SISCompressed.packed_iAlgorithm (SISCompressed.chosen_cases _ _)]
    exact SISCompressed.chosen_eq_iff

end

/-! ### Files that show the limits -/

/-- A controller with only a data index, in a zlib stream under an algorithm word. -/
def packedController (algorithm : UInt8) : Bytes :=
  [122, 26, 32, 16, 0, 0, 0, 0, 103, 69, 35, 225, 0, 0, 0, 0, 12, 0, 0, 0, 52, 0, 0, 0, 3, 0, 0, 0,
    43, 0, 0, 0, algorithm, 0, 0, 0, 20, 0, 0, 0, 0, 0, 0, 0, 120, 1, 1, 20, 0, 235, 255, 13, 0, 0, 0, 12, 0,
    0, 0, 40, 0, 0, 0, 4, 0, 0, 0, 0, 0, 0, 0, 3, 216, 0, 70, 0]

/-- An uncompressed controller with a capability blob of three bytes and a data index. -/
def shortCapabilities : Bytes :=
  [122, 26, 32, 16, 0, 0, 0, 0, 103, 69, 35, 225, 0, 0, 0, 0, 12, 0, 0, 0, 52, 0, 0, 0, 3, 0, 0, 0,
    44, 0, 0, 0, 0, 0, 0, 0, 32, 0, 0, 0, 0, 0, 0, 0, 13, 0, 0, 0, 24, 0, 0, 0, 41, 0, 0, 0, 3, 0, 0,
    0, 1, 2, 3, 0, 40, 0, 0, 0, 4, 0, 0, 0, 0, 0, 0, 0]

/-- A deflated controller with a capability blob of one word and a data index. -/
def wordCapabilities : Bytes :=
  [122, 26, 32, 16, 0, 0, 0, 0, 103, 69, 35, 225, 0, 0, 0, 0, 12, 0, 0, 0, 64, 0, 0, 0, 3, 0, 0, 0,
    55, 0, 0, 0, 1, 0, 0, 0, 32, 0, 0, 0, 0, 0, 0, 0, 120, 1, 1, 32, 0, 223, 255, 13, 0, 0, 0, 24, 0, 0, 0,
    41, 0, 0, 0, 4, 0, 0, 0, 1, 2, 3, 4, 40, 0, 0, 0, 4, 0, 0, 0, 0, 0, 0, 0, 11, 20, 0, 137, 0]

/-- A signer whose signatures and certificates are one byte long. -/
def byteSigner (b : UInt8) : Signer := ⟨false, some [0x30], fun _ => some [b]⟩

theorem exists_of_any {α : Type} {r : Res α} {p : α → Bool} (h : r.toOption.any p) :
    ∃ a, r = .ok a ∧ p a := by
  cases r with
  | error e => cases h
  | ok a => exact ⟨a, rfl, h⟩

theorem endsWithDataIndex_of_ids {controller : List SISField} {l : List UInt32}
    (h : controller.map SISField.id = l ++ [LeafClass.id .SISDataIndex])
    (hids : LeafClass.id .SISDataIndex ∉ l) : EndsWithDataIndex controller := by
  obtain ⟨pre, last, rfl, hpre, hlast⟩ := List.map_eq_append_iff.mp h
  obtain ⟨dataIndex, rfl, hdi⟩ := List.map_eq_singleton_iff.mp hlast
  refine ⟨pre, dataIndex, rfl, hdi, fun f hf hid => hids ?_⟩
  rw [← hpre, ← hid]
  exact List.mem_map_of_mem hf

/-- The length of a capability blob at the head. -/
def capabilityBytes : List SISField → Option ℕ
  | .leaf (.SISCapabilities b) :: _ => some b.length
  | _ => none

/-- `signsis -u` writes another algorithm word, and removing a signature leaves a capability blob longer
than it was. -/
theorem signsis_unknownAlgorithm_shortCapabilities :
    (∃ file before after, readController storedZlib (packedController 2) = .ok before ∧
      EndsWithDataIndex before.controller ∧
      signsis storedZlib .remove (packedController 2) = .ok file ∧
      readController storedZlib file = .ok after ∧ after.algorithm ≠ before.algorithm) ∧
    ∃ signed restored before after, readController storedZlib shortCapabilities = .ok before ∧
      EndsWithDataIndex before.controller ∧
      signings storedZlib [byteSigner 7] shortCapabilities = .ok signed ∧
      removals storedZlib 1 signed = .ok restored ∧
      readController storedZlib restored = .ok after ∧ after.controller ≠ before.controller := by
  constructor
  · obtain ⟨file, hrun, hread⟩ := exists_of_any
      (r := signsis storedZlib .remove (packedController 2))
      (p := fun file => (readController storedZlib file).toOption.any fun s =>
        s.algorithm == ECompressNone) (by decide +kernel)
    obtain ⟨after, hafter, halg'⟩ := exists_of_any hread
    obtain ⟨before, hbefore, hshape⟩ := exists_of_any
      (r := readController storedZlib (packedController 2))
      (p := fun s => s.algorithm == 2 && s.controller.map SISField.id == [40]) (by decide +kernel)
    simp only [Bool.and_eq_true, beq_iff_eq] at hshape halg'
    obtain ⟨halg, hids⟩ := hshape
    refine ⟨file, before, after, hbefore, ?_, hrun, hafter, ?_⟩
    · exact endsWithDataIndex_of_ids (l := []) hids (by simp)
    · rw [halg, halg']
      decide
  · obtain ⟨signed, hsign, h⟩ := exists_of_any
      (r := signings storedZlib [byteSigner 7] shortCapabilities)
      (p := fun signed => (removals storedZlib 1 signed).toOption.any fun restored =>
        (readController storedZlib restored).toOption.any fun s =>
          capabilityBytes s.controller == some 4) (by decide +kernel)
    obtain ⟨restored, hremove, h⟩ := exists_of_any h
    obtain ⟨after, hafter, hcaps'⟩ := exists_of_any h
    obtain ⟨before, hbefore, hshape⟩ := exists_of_any
      (r := readController storedZlib shortCapabilities)
      (p := fun s => capabilityBytes s.controller == some 3 &&
        s.controller.map SISField.id == [41, 40]) (by decide +kernel)
    simp only [Bool.and_eq_true, beq_iff_eq] at hshape hcaps'
    obtain ⟨hcaps, hids⟩ := hshape
    refine ⟨signed, restored, before, after, hbefore, ?_, hsign, hremove, hafter, ?_⟩
    · exact endsWithDataIndex_of_ids (l := [41]) hids (by decide)
    · intro heq
      rw [heq, hcaps] at hcaps'
      cases hcaps'

theorem smallSis_of_read {z : Zlib} {file : Bytes} {sis : SISFile} (h : readController z file = .ok sis)
    (hlt : file.length < 2 ^ 32) (hsize : sis.cController.iUncompressedSize.toNat < 2 ^ 32) : SmallSis file := by
  refine ⟨hlt, fun header contents c hload hfind => ?_⟩
  rw [readController_load h] at hload
  cases hload
  obtain ⟨-, -, -, hc⟩ := readController_sound h
  rw [hc] at hfind
  cases hfind
  exact hsize

/-- A capability blob of one word, signed three times; two of the signatures are removed. -/
theorem signings_removals_capabilities :
    ∃ earlier signed restored mid after,
      signings storedZlib [byteSigner 7] wordCapabilities = .ok earlier ∧
      readController storedZlib earlier = .ok mid ∧
      signings storedZlib [byteSigner 8, byteSigner 9] earlier = .ok signed ∧
      removals storedZlib 2 signed = .ok restored ∧
      readController storedZlib restored = .ok after ∧
      after.controller = rereadAll mid.controller ∧ EndsWithDataIndex after.controller := by
  obtain ⟨before, hbefore, hids⟩ := exists_of_any (r := readController storedZlib wordCapabilities)
    (p := fun s => s.controller.map SISField.id == [41, 40]) (by decide +kernel)
  have hends : EndsWithDataIndex before.controller :=
    endsWithDataIndex_of_ids (l := [41]) (beq_iff_eq.mp hids) (by decide)
  obtain ⟨earlier, hearlier, h⟩ := exists_of_any
    (r := signings storedZlib [byteSigner 7] wordCapabilities)
    (p := fun earlier => ((readController storedZlib earlier).toOption.any fun (mid : SISFile) =>
        decide ((copyElements (mid.repacked storedZlib ECompressNone)).length + 48 < 2 ^ 32) &&
          decide ((copyElements (mid.repacked storedZlib ECompressDeflate)).length + 48 < 2 ^ 32)) &&
      (signings storedZlib [byteSigner 8, byteSigner 9] earlier).toOption.any fun signed =>
        (readController storedZlib signed).toOption.any fun (last : SISFile) =>
          decide (signed.length < 2 ^ 32) && decide (last.cController.iUncompressedSize.toNat < 2 ^ 32))
    (by decide +kernel)
  simp only [Bool.and_eq_true] at h
  obtain ⟨mid, hmid, hroom⟩ := exists_of_any h.1
  obtain ⟨signed, hsigned, h⟩ := exists_of_any h.2
  obtain ⟨last, hlast, hsmall⟩ := exists_of_any h
  simp only [Bool.and_eq_true, decide_eq_true_eq] at hroom hsmall
  obtain ⟨⟨restored, after, hrestored, hafter, hctrl, hends', -⟩, -⟩ :=
    signings_removals hbefore hends hearlier hmid hsigned (smallSis_of_read hlast hsmall.1 hsmall.2) (by
      rintro a (rfl | rfl)
      · exact hroom.1
      · exact hroom.2)
  exact ⟨earlier, signed, restored, mid, after, hearlier, hmid, hsigned, hrestored, hafter, hctrl, hends'⟩

end GnuPoc.Sis
