import GnuPoc.Sis.Signsis

/-!
# GnuPoc.Sis.Checksums — the checksums in the file signsis writes

makesis computes both checksums with `crcFast` after `crcInit`.  signsis computes the controller's with
`crcSlow`, which is the same, keeps a data checksum it finds and adds a missing one with `crcFast` while
the table is still empty.
-/

namespace GnuPoc.Sis

open GnuPoc.Lib

/-- The checksum makesis writes for a field: the CRC over the bytes of the field. -/
def fieldChecksum (data : Bytes) : UInt16 := crcFast crcInit data data.length

/-- The checksum fields of a file belong to its compressed controller and to its data. -/
structure ChecksumsRight (contents : List SISField) : Prop where
  controller : ∃ c d, findElement (LeafClass.id .SISCompressed) contents = some c ∧ c.headerData = .ok d ∧
    findElement (LeafClass.id .SISControllerChecksum) contents =
      some (.leaf (.SISControllerChecksum (fieldChecksum d)))
  data : ∀ data d, findElement (PlainClass.id .SISData) contents = some data → data.headerData = .ok d →
    findElement (LeafClass.id .SISDataChecksum) contents = some (.leaf (.SISDataChecksum (fieldChecksum d)))

/-- What a file must bring for its data checksum to come out right: the right one, or none where the
CRC of the data happens to be zero. -/
def DataChecksumReady (contents : List SISField) : Prop :=
  ∀ data d, findElement (PlainClass.id .SISData) contents = some data → data.headerData = .ok d →
    match findElement (LeafClass.id .SISDataChecksum) contents with
    | some dcsum => dcsum = .leaf (.SISDataChecksum (fieldChecksum d))
    | none => fieldChecksum d = 0

theorem SISField.headerData_reread (f : SISField) : f.reread.headerData = f.headerData := by
  rw [headerData, headerData, headerDataLength, headerDataLength, copyHeaderData_reread, f.reread_writes.1]

theorem SISField.reread_eq_controllerChecksum {f : SISField} {v : UInt16} :
    f.reread = .leaf (.SISControllerChecksum v) ↔ f = .leaf (.SISControllerChecksum v) := by
  rcases f with l | _ | _
  · cases l <;> simp [reread, Leaf.reread]
  all_goals simp [reread]

theorem SISField.reread_eq_dataChecksum {f : SISField} {v : UInt16} :
    f.reread = .leaf (.SISDataChecksum v) ↔ f = .leaf (.SISDataChecksum v) := by
  rcases f with l | _ | _
  · cases l <;> simp [reread, Leaf.reread]
  all_goals simp [reread]

section
variable {z : Zlib} {mode : SignsisMode} {file file' header header' : Bytes}
  {contents contents' : List SISField}

theorem setControllerChecksum_found {c : SISCompressed}
    (h : setControllerChecksum c contents = .ok contents') :
    ∃ d, (SISField.leaf (.SISCompressed c)).headerData = .ok d ∧
      findElement (LeafClass.id .SISControllerChecksum) contents' =
        some (.leaf (.SISControllerChecksum (fieldChecksum d))) := by
  obtain ⟨d, hd, h⟩ := bind_eq_ok.mp h
  refine ⟨d, hd, ?_⟩
  rw [fieldChecksum, ← crcSlow_eq_crcFast]
  simp only at h
  split at h
  · next f hf =>
    cases h
    exact findElement_updateElement (f := .leaf (.SISControllerChecksum (crcSlow d d.length))) (by
      change (findElement (LeafClass.id .SISControllerChecksum) contents).isSome
      rw [hf]
      rfl)
  · cases h
    exact findElement_addElementAt_zero (f := .leaf (.SISControllerChecksum (crcSlow d d.length))) contents

theorem addDataChecksum_found (hne : contents ≠ []) (h : addDataChecksum contents = .ok contents') :
    findElement (LeafClass.id .SISDataChecksum) contents' =
      (findElement (LeafClass.id .SISDataChecksum) contents).or
        ((findElement (PlainClass.id .SISData) contents).map fun _ => .leaf (.SISDataChecksum 0)) := by
  unfold addDataChecksum at h
  split at h
  · next f hf =>
    cases h
    rw [hf, Option.some_or]
  · next hf =>
    rw [hf, Option.none_or]
    split at h
    · next hd =>
      cases h
      rw [hf, hd, Option.map_none]
    · next data hd =>
      obtain ⟨d, -, h⟩ := bind_eq_ok.mp h
      cases h
      rw [hd, crcFast_unset]
      exact findElement_addElementAt_one (f := .leaf (.SISDataChecksum 0)) hne hf

/-- The elements a run writes, by what `FindElement` finds among them. -/
theorem signsis_elements {sis : SISFile} (hsis : readController z file = .ok sis)
    (h : signsis z mode file = .ok file') :
    ∃ written data, SoundAll written ∧ (SISField.plain .SISContents written).headerData = .ok data ∧
      file' = sis.header ++ data ∧
      (∃ c d, findElement (LeafClass.id .SISCompressed) written = some c ∧ c.headerData = .ok d ∧
        findElement (LeafClass.id .SISControllerChecksum) written =
          some (.leaf (.SISControllerChecksum (fieldChecksum d)))) ∧
      findElement (PlainClass.id .SISData) written = findElement (PlainClass.id .SISData) sis.contents ∧
      findElement (LeafClass.id .SISDataChecksum) written =
        (findElement (LeafClass.id .SISDataChecksum) sis.contents).or
          ((findElement (PlainClass.id .SISData) sis.contents).map fun _ => .leaf (.SISDataChecksum 0)) := by
  obtain ⟨controller, c, d₀, contents, written, data, -, -, hholds, -, hset, hadd, hdata, rfl⟩ :=
    signsis_steps hsis h
  obtain ⟨hsu, hfu⟩ := updateController hsis hholds
  obtain ⟨hs₁, hfind₁⟩ := setControllerChecksum_spec hsu hset
  obtain ⟨hs₂, hfind₂⟩ := addDataChecksum_spec hs₁ hadd
  have hne : contents ≠ [] := by
    rintro rfl
    rw [← hfind₁ _ (by decide)] at hfu
    cases hfu
  -- nothing but the compressed controller has changed when the data checksum is looked for
  have hkeep (aType : UInt32) (h₁ : aType ≠ LeafClass.id .SISControllerChecksum)
      (h₂ : LeafClass.id .SISCompressed ≠ aType) :
      findElement aType contents = findElement aType sis.contents := by
    rw [hfind₁ _ h₁]
    exact findElement_updateElement_of_ne _ h₂
  obtain ⟨d, hd, hcsum⟩ := setControllerChecksum_found hset
  refine ⟨written, data, hs₂, hdata, rfl, ⟨_, d, ?_, hd, ?_⟩, ?_, ?_⟩
  · rw [hfind₂ _ (by decide), hfind₁ _ (by decide)]
    exact hfu
  · rw [hfind₂ _ (by decide)]
    exact hcsum
  · rw [hfind₂ _ (by decide), hkeep _ (by decide) (by decide)]
  · rw [addDataChecksum_found hne hadd, hkeep _ (by decide) (by decide), hkeep _ (by decide) (by decide)]

/-- Reading the elements back changes neither the checksums nor what they are over. -/
theorem checksumsRight_rereadAll : ChecksumsRight (rereadAll contents) ↔ ChecksumsRight contents := by
  constructor
  · rintro ⟨⟨c', d, hc, hd, hcsum⟩, hdata⟩
    rw [findElement_rereadAll, Option.map_eq_some_iff] at hc hcsum
    obtain ⟨c, hc, rfl⟩ := hc
    obtain ⟨csum, hcsum, hv⟩ := hcsum
    rw [SISField.reread_eq_controllerChecksum] at hv
    subst hv
    refine ⟨⟨c, d, hc, by rwa [SISField.headerData_reread] at hd, hcsum⟩, fun data dd hfind hdd => ?_⟩
    have hright := hdata data.reread dd (by rw [findElement_rereadAll, hfind]; rfl)
      (by rwa [SISField.headerData_reread])
    rw [findElement_rereadAll, Option.map_eq_some_iff] at hright
    obtain ⟨dcsum, hdcsum, hv⟩ := hright
    rw [SISField.reread_eq_dataChecksum] at hv
    rw [hdcsum, hv]
  · rintro ⟨⟨c, d, hc, hd, hcsum⟩, hdata⟩
    refine ⟨⟨c.reread, d, ?_, ?_, ?_⟩, fun data' dd hfind hdd => ?_⟩
    · rw [findElement_rereadAll, hc]
      rfl
    · rwa [SISField.headerData_reread]
    · rw [findElement_rereadAll, hcsum]
      rfl
    · rw [findElement_rereadAll, Option.map_eq_some_iff] at hfind
      obtain ⟨data, hfind, rfl⟩ := hfind
      rw [SISField.headerData_reread] at hdd
      rw [findElement_rereadAll, hdata data dd hfind hdd]
      rfl

/-- The data checksum a run writes is right exactly when the file brought what that takes. -/
theorem dataChecksum_iff {written : List SISField}
    (hdata : findElement (PlainClass.id .SISData) written = findElement (PlainClass.id .SISData) contents)
    (hdcsum : findElement (LeafClass.id .SISDataChecksum) written =
      (findElement (LeafClass.id .SISDataChecksum) contents).or
        ((findElement (PlainClass.id .SISData) contents).map fun _ => .leaf (.SISDataChecksum 0))) :
    (∀ data d, findElement (PlainClass.id .SISData) written = some data → data.headerData = .ok d →
      findElement (LeafClass.id .SISDataChecksum) written = some (.leaf (.SISDataChecksum (fieldChecksum d)))) ↔
      DataChecksumReady contents := by
  rw [hdata, hdcsum]
  refine forall_congr' fun data => forall_congr' fun d => imp_congr_right fun hfind => imp_congr_right fun _ => ?_
  cases findElement (LeafClass.id .SISDataChecksum) contents with
  | some dcsum => exact Option.some_inj
  | none =>
    rw [hfind]
    show some _ = some _ ↔ _
    rw [Option.some_inj, SISField.leaf.injEq, Leaf.SISDataChecksum.injEq]
    exact eq_comm

/-- **Checksums of a signed file.**  The controller checksum is always right; the data checksum is right
exactly when the input file already had it so, or had none and the CRC of its data is zero. -/
theorem signsis_checksums_iff (hbefore : loadSISFile file = .ok (header, contents))
    (h : signsis z mode file = .ok file') :
    ∃ written data, (SISField.plain .SISContents written).headerData = .ok data ∧ file' = header ++ data ∧
      (ChecksumsRight written ↔ DataChecksumReady contents) ∧
      ∀ header' contents', loadSISFile file' = .ok (header', contents') →
        (ChecksumsRight contents' ↔ DataChecksumReady contents) := by
  obtain ⟨sis, hsis, -⟩ := bind_eq_ok.mp h
  obtain ⟨hlen, -⟩ := readController_sound hsis
  obtain ⟨rfl, rfl⟩ := Prod.mk.inj (Except.ok.inj (hbefore.symm.trans (readController_load hsis)))
  obtain ⟨written, data, hs, hbytes, rfl, hcontroller, hdata, hdcsum⟩ := signsis_elements hsis h
  have hiff := dataChecksum_iff hdata hdcsum
  have hright : ChecksumsRight written ↔ DataChecksumReady sis.contents := by
    rw [← hiff]
    exact ⟨fun hr => hr.data, fun hr => ⟨hcontroller, hr⟩⟩
  refine ⟨written, data, hbytes, rfl, hright, fun header' contents' hafter => ?_⟩
  rw [(loadSISFile_write hlen hs hbytes hafter).2.2, checksumsRight_rereadAll]
  exact hright

end

/-! ### A file without a data checksum, and one with the right one -/

/-- A deflated controller with only a data index, and data without units; `dcsum` stands before them. -/
def dataFile (dcsum : Bytes) : Bytes :=
  (packedController 1).take 20 ++ [UInt8.ofNat (72 + dcsum.length), 0, 0, 0] ++ dcsum ++
    (packedController 1).drop 24 ++ [30, 0, 0, 0, 12, 0, 0, 0, 2, 0, 0, 0, 4, 0, 0, 0, 31, 0, 0, 0]

/-- The checksum of the data of a file, computed and as the file has it. -/
def dataChecksums (contents : List SISField) : Option (UInt16 × Option UInt16) := do
  let data ← findElement (PlainClass.id .SISData) contents
  let d ← data.headerData.toOption
  match findElement (LeafClass.id .SISDataChecksum) contents with
  | some (.leaf (.SISDataChecksum v)) => some (fieldChecksum d, some v)
  | _ => some (fieldChecksum d, none)

theorem dataChecksums_of_right {contents : List SISField} {v : UInt16} {stored : Option UInt16}
    (h : dataChecksums contents = some (v, stored)) (hright : ChecksumsRight contents) : stored = some v := by
  unfold dataChecksums at h
  obtain ⟨data, hdata, h⟩ := Option.bind_eq_some_iff.mp h
  obtain ⟨d, hd, h⟩ := Option.bind_eq_some_iff.mp h
  have hok : data.headerData = .ok d := by
    cases hres : data.headerData with
    | error e => simp [hres, Except.toOption] at hd
    | ok d' => simpa [hres, Except.toOption] using hd
  rw [hright.data data d hdata hok] at h
  cases h
  rfl

/-- The checksum that is added where there was none is zero. -/
theorem signsis_missing_dataChecksum :
    ∃ file' header' contents', signsis storedZlib .remove (dataFile []) = .ok file' ∧
      loadSISFile file' = .ok (header', contents') ∧ ¬ ChecksumsRight contents' := by
  obtain ⟨file', hrun, hload⟩ := exists_of_any (r := signsis storedZlib .remove (dataFile []))
    (p := fun file => (loadSISFile file).toOption.any fun s =>
      dataChecksums s.2 == some (0x3CD9, some 0)) (by decide +kernel)
  obtain ⟨⟨header', contents'⟩, hload, hsums⟩ := exists_of_any hload
  refine ⟨file', header', contents', hrun, hload, fun hright => ?_⟩
  have h := dataChecksums_of_right (beq_iff_eq.mp hsums) hright
  revert h
  decide

/-- The data checksum makesis writes for `dataFile`. -/
def rightDataChecksum : Bytes := [35, 0, 0, 0, 2, 0, 0, 0, 0xD9, 0x3C, 0, 0]

/-- With the checksum makesis computes, `signsis` leaves both right. -/
theorem signsis_checksums_kept :
    ∃ header contents file', loadSISFile (dataFile rightDataChecksum) = .ok (header, contents) ∧
      signsis storedZlib .remove (dataFile rightDataChecksum) = .ok file' ∧
      ∃ written data, (SISField.plain .SISContents written).headerData = .ok data ∧ file' = header ++ data ∧
        (ChecksumsRight written ↔ DataChecksumReady contents) := by
  obtain ⟨⟨header, contents⟩, hload, -⟩ := exists_of_any
    (r := loadSISFile (dataFile rightDataChecksum)) (p := fun _ => true)
    (by decide +kernel)
  obtain ⟨file', hrun, -⟩ := exists_of_any
    (r := signsis storedZlib .remove (dataFile rightDataChecksum)) (p := fun _ => true)
    (by decide +kernel)
  obtain ⟨written, data, hdata, hfile, hiff, -⟩ := signsis_checksums_iff hload hrun
  exact ⟨header, contents, file', hload, hrun, written, data, hdata, hfile, hiff⟩

end GnuPoc.Sis
