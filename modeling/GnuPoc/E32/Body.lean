import GnuPoc.E32.Relocated

/-!
# GnuPoc.E32.Body — the body of an image that is written

The parts follow one another without a gap but for the padding, and the header says where each of them
starts.  The relocations patch words of the code and of the data in between and leave every other byte.
-/

namespace GnuPoc.E32

open GnuPoc.Lib

/-! ### The frame of the relocations -/

/-- The word of an entry covers a byte of the file. -/
def Elf32_Rel.Covers (header : E32ImageHeader) (rel : Elf32_Rel) (i : ℕ) : Prop :=
  ∃ pos, sitePos header rel = some pos ∧ pos ≤ i ∧ i < pos + 4

/-- A word that starts in the code or in the data ends there too, and is not in the `bss`. -/
def Elf32_Rel.Inside (header : E32ImageHeader) (rel : Elf32_Rel) : Prop :=
  (InCode header rel.r_offset → CodeSite header rel) ∧
    (¬ InCode header rel.r_offset → InData header rel.r_offset → DataSite header rel)

/-- The data range is in the file. -/
def DataInFile (header : E32ImageHeader) (out : Bytes) : Prop :=
  header.dataSize.toUInt32 ≠ 0 → header.dataOffset.toNat + header.dataSize.toUInt32.toNat ≤ out.length

section
variable {stack : Bytes} {findOrdinal : Option CString → CString → Except Stop (Option UInt32)} {elf : Elf}
variable {sections : RelocSections} {header : E32ImageHeader} {rel : Elf32_Rel} {rels : List Elf32_Rel}
variable {s s' : RelocState} {out₀ : Bytes}

theorem importFixed_fixed (rel : Elf32_Rel) (value offset : UInt32) (out : Bytes) :
    ImportFixed offset out (fixed stack rel value offset out) := by
  unfold fixed
  split
  · exact .inr ⟨_, rfl⟩
  · exact .inl rfl

/-- A relocation changes at most the word of its site. -/
theorem checkRelocation_out (h : checkRelocation stack findOrdinal elf sections header rel s = .ok s') :
    s'.out = s.out ∨
    InCode header rel.r_offset ∧ ImportFixed (rel.r_offset - header.codeBase + header.codeOffset) s.out s'.out ∨
    ¬ InCode header rel.r_offset ∧ InData header rel.r_offset ∧
      ImportFixed (rel.r_offset - header.dataBase + header.dataOffset) s.out s'.out := by
  unfold checkRelocation at h
  split at h
  · cases h
  · split at h
    · cases h
      exact .inl rfl
    · next sym _ =>
      split at h
      · cases h
        unfold checkDefined
        simp only
        split
        · next hcode => exact .inr (.inl ⟨hcode, importFixed_fixed rel _ _ _⟩)
        · next hcode =>
          split
          · next hdata => exact .inr (.inr ⟨hcode, hdata, importFixed_fixed rel _ _ _⟩)
          · exact .inl rfl
      · split at h
        · cases h
        · obtain ⟨⟨dsoname, dllname⟩, -, h⟩ := bind_eq_ok.mp h
          unfold checkImport at h
          simp only at h
          split at h
          · split at h
            · next hcode =>
              split at h
              · obtain ⟨out, hout, h⟩ := bind_eq_ok.mp h
                cases h
                exact .inr (.inl ⟨hcode, fixImportRelocationByName_fixed hout⟩)
              · cases h
            · next hcode =>
              split at h
              · next hdata =>
                split at h
                · obtain ⟨out, hout, h⟩ := bind_eq_ok.mp h
                  cases h
                  exact .inr (.inr ⟨hcode, hdata, fixImportRelocationByName_fixed hout⟩)
                · cases h
              · cases h
                exact .inl rfl
          · cases h
            exact .inl rfl

/-- The other bytes stand. -/
def Framed (header : E32ImageHeader) (rels : List Elf32_Rel) (out out' : Bytes) : Prop :=
  out'.length = out.length ∧ ∀ i, (∀ rel ∈ rels, ¬ rel.Covers header i) → out'[i]? = out[i]?

theorem ImportFixed.length_le {offset : UInt32} {out out' : Bytes} (h : ImportFixed offset out out') :
    out.length ≤ out'.length := by
  rcases h with rfl | ⟨word, rfl⟩
  · exact le_refl _
  · rw [length_writeAt]
    exact le_max_left _ _

theorem checkRelocation_length_le (h : checkRelocation stack findOrdinal elf sections header rel s = .ok s') :
    s.out.length ≤ s'.out.length := by
  rcases checkRelocation_out h with h0 | ⟨-, hfix⟩ | ⟨-, -, hfix⟩
  · rw [h0]
  · exact hfix.length_le
  · exact hfix.length_le

theorem relocate_length_le {env : Environment} {p : Prepared} (h : relocate env p header s = .ok s') :
    s.out.length ≤ s'.out.length := by
  unfold relocate at h
  split at h
  · split at h
    · cases h
    · unfold checkRelocations at h
      generalize relocationEntries p.elf = rels at h
      induction rels generalizing s with
      | nil =>
        cases h
        exact le_refl _
      | cons rel rels ih =>
        rw [List.foldlM_cons] at h
        obtain ⟨s₁, h1, h⟩ := bind_eq_ok.mp h
        exact (checkRelocation_length_le h1).trans (ih h)
  · cases h
    exact le_refl _

theorem checkRelocation_framed (hr : FileRanges header out₀) (hd : DataInFile header out₀) (hin : rel.Inside header)
    (hlen : s.out.length = out₀.length)
    (h : checkRelocation stack findOrdinal elf sections header rel s = .ok s') :
    Framed header [rel] s.out s'.out := by
  rcases checkRelocation_out h with h0 | ⟨hcode, hfix⟩ | ⟨hcode, hdata, hfix⟩
  · rw [h0]
    exact ⟨rfl, fun i _ => rfl⟩
  · have hsite := hin.1 hcode
    obtain ⟨hpos, hend⟩ := toNat_codePos hr hsite
    obtain ⟨hlen', hframe⟩ := hfix.spec (by rw [hpos, hlen]; exact hend)
    refine ⟨hlen', fun i hi => hframe i fun hcov => hi rel List.mem_cons_self ⟨_, sitePos_code hsite, ?_⟩⟩
    rwa [hpos] at hcov
  · have hsite := hin.2 hcode hdata
    have hend : dataPos header rel + 4 ≤ out₀.length := by
      obtain ⟨-, h1, h2⟩ := hsite
      have hne : header.dataSize.toUInt32 ≠ 0 := by
        intro h0
        have hzero : (0 : UInt32).toNat = 0 := rfl
        rw [h0] at h2
        omega
      have hfile := hd hne
      unfold dataPos
      omega
    have hpos := toNat_dataPos hr hsite hend
    obtain ⟨hlen', hframe⟩ := hfix.spec (by rw [hpos, hlen]; exact hend)
    refine ⟨hlen', fun i hi => hframe i fun hcov => hi rel List.mem_cons_self ⟨_, sitePos_data hsite, ?_⟩⟩
    rwa [hpos] at hcov

theorem checkRelocations_framed (hr : FileRanges header out₀) (hd : DataInFile header out₀)
    (hin : ∀ rel ∈ rels, rel.Inside header) (hlen : s.out.length = out₀.length)
    (h : checkRelocations stack findOrdinal elf sections header rels s = .ok s') :
    Framed header rels s.out s'.out := by
  induction rels generalizing s with
  | nil =>
    cases h
    exact ⟨rfl, fun i _ => rfl⟩
  | cons rel rels ih =>
    unfold checkRelocations at h
    rw [List.foldlM_cons] at h
    obtain ⟨s₁, h1, h⟩ := bind_eq_ok.mp h
    obtain ⟨hlen₁, hframe₁⟩ := checkRelocation_framed hr hd (hin rel List.mem_cons_self) hlen h1
    obtain ⟨hlen₂, hframe₂⟩ := ih (fun r hr => hin r (List.mem_cons_of_mem _ hr)) (hlen₁.trans hlen) h
    refine ⟨hlen₂.trans hlen₁, fun i hi => ?_⟩
    rw [hframe₂ i fun r hr => hi r (List.mem_cons_of_mem _ hr)]
    refine hframe₁ i fun r hr => ?_
    obtain rfl := List.mem_singleton.mp hr
    exact hi r List.mem_cons_self

theorem relocate_framed {env : Environment} {p : Prepared} (hr : FileRanges header out₀) (hd : DataInFile header out₀)
    (hin : ∀ rel ∈ relocationEntries p.elf, rel.Inside header) (hlen : s.out.length = out₀.length)
    (h : relocate env p header s = .ok s') : Framed header (relocationEntries p.elf) s.out s'.out := by
  unfold relocate at h
  split at h
  · split at h
    · cases h
    · exact checkRelocations_framed hr hd hin hlen h
  · cases h
    exact ⟨rfl, fun i _ => rfl⟩

end

/-! ### The tables behind the data -/

/-- The sections that stand behind the data. -/
def importSection (sorts : Sorts) (s : RelocState) : Bytes := s.importList.write sorts.libraries true true

def codeRelocs (sorts : Sorts) (header : E32ImageHeader) (s : RelocState) : Bytes :=
  s.relocationList.write sorts.relocations header

def dataRelocs (sorts : Sorts) (header : E32ImageHeader) (s : RelocState) : Bytes :=
  if s.dataRelocationList.count ≠ 0 then s.dataRelocationList.write sorts.relocations header else []

/-- The offsets that `writeTables` sets. -/
def E32ImageHeader.withTables (header : E32ImageHeader) (libraries : ℕ) (codeReloc dataReloc : UInt32) :
    E32ImageHeader :=
  { header with
    dllRefTableCount := Int32.ofNat libraries
    codeRelocOffset := codeReloc
    dataRelocOffset := dataReloc }

theorem writeTables_length_le (sorts : Sorts) (header : E32ImageHeader) (s : RelocState) :
    s.out.length ≤ (writeTables sorts true true header s).1.out.length := by
  have hle (out : Bytes) (pos : ℕ) (data : Bytes) : out.length ≤ (writeAt out pos data).length := by
    rw [length_writeAt]
    exact le_max_left _ _
  unfold writeTables
  simp only
  split
  · exact ((hle _ _ _).trans (hle _ _ _)).trans (hle _ _ _)
  · exact (hle _ _ _).trans (hle _ _ _)

/-- The three tables stand one behind the other, where the header says. -/
theorem writeTables_eq (sorts : Sorts) {header : E32ImageHeader} {s : RelocState}
    (hpos : header.importOffset.toNat = s.out.length) :
    writeTables sorts true true header s =
      (⟨s.out ++ (importSection sorts s ++ codeRelocs sorts header s ++ dataRelocs sorts header s),
        header.withTables s.importList.numLibraries
          (UInt32.ofNat (s.out.length + (importSection sorts s).length))
          (if s.dataRelocationList.count ≠ 0 then
            UInt32.ofNat (s.out.length + (importSection sorts s).length + (codeRelocs sorts header s).length)
          else header.dataRelocOffset)⟩,
        UInt32.ofNat (s.out ++ (importSection sorts s ++ codeRelocs sorts header s ++
          dataRelocs sorts header s)).length - header.codeOffset) := by
  have h1 : writeAt s.out header.importOffset.toNat (importSection sorts s) = s.out ++ importSection sorts s := by
    rw [hpos, writeAt_length]
  have h2 : writeAt (s.out ++ importSection sorts s) (header.importOffset.toNat + (importSection sorts s).length)
      (codeRelocs sorts header s) = s.out ++ importSection sorts s ++ codeRelocs sorts header s := by
    rw [hpos, ← List.length_append, writeAt_length]
  have h3 : writeAt (s.out ++ importSection sorts s ++ codeRelocs sorts header s)
      (header.importOffset.toNat + (importSection sorts s).length + (codeRelocs sorts header s).length)
      (s.dataRelocationList.write sorts.relocations header) =
        s.out ++ importSection sorts s ++ codeRelocs sorts header s ++
          s.dataRelocationList.write sorts.relocations header := by
    rw [hpos, ← List.length_append, ← List.length_append, writeAt_length]
  have hlen : (s.out ++ (importSection sorts s ++ codeRelocs sorts header s ++
      s.dataRelocationList.write sorts.relocations header)).length =
      header.importOffset.toNat + (importSection sorts s).length + (codeRelocs sorts header s).length +
        (s.dataRelocationList.write sorts.relocations header).length := by
    rw [hpos]
    simp only [List.length_append, Nat.add_assoc]
  have hlen' : (s.out ++ (importSection sorts s ++ codeRelocs sorts header s ++ [])).length =
      header.importOffset.toNat + (importSection sorts s).length + (codeRelocs sorts header s).length := by
    rw [hpos, List.append_nil]
    simp only [List.length_append, Nat.add_assoc]
  unfold writeTables dataRelocs
  simp only
  by_cases hcount : s.dataRelocationList.count = 0
  · rw [if_neg (not_not.mpr hcount), if_neg (not_not.mpr hcount), if_neg (not_not.mpr hcount), hlen', List.append_nil,
      ← List.append_assoc, ← h2, ← h1, ← hpos]
    rfl
  · rw [if_pos hcount, if_pos hcount, if_pos hcount, hlen, ← List.append_assoc, ← List.append_assoc, ← h3, ← h2, ← h1,
      ← hpos]
    rfl

/-! ### The body -/

/-- No relocation entry designates a word over a byte. -/
def Untouched (p : Prepared) (header : E32ImageHeader) (i : ℕ) : Prop :=
  ∀ rel ∈ relocationEntries p.elf, ¬ rel.Covers header i

/-- The fields that say where the code and the data are. -/
structure ImageRanges where
  codeBase : UInt32
  codeOffset : UInt32
  codeSize : Int32
  dataBase : UInt32
  dataOffset : UInt32
  dataSize : Int32

def E32ImageHeader.ranges (h : E32ImageHeader) : ImageRanges :=
  ⟨h.codeBase, h.codeOffset, h.codeSize, h.dataBase, h.dataOffset, h.dataSize⟩

theorem sitePos_of_ranges {h h' : E32ImageHeader} (hr : h.ranges = h'.ranges) (rel : Elf32_Rel) :
    sitePos h rel = sitePos h' rel := by
  obtain ⟨h1, h2, h3, h4, h5, h6⟩ := ImageRanges.mk.inj hr
  have hcode : CodeSite h rel ↔ CodeSite h' rel := by rw [CodeSite, CodeSite, h1, h3]
  have hdata : DataSite h rel ↔ DataSite h' rel := by rw [DataSite, DataSite, hcode, h4, h6]
  simp only [sitePos, hcode, hdata, codePos, dataPos, h1, h2, h4, h5]

theorem untouched_of_ranges {p : Prepared} {h h' : E32ImageHeader} (hr : h.ranges = h'.ranges) {i : ℕ}
    (hi : Untouched p h i) : Untouched p h' i := by
  intro rel hrel hcov
  obtain ⟨pos, hpos, hin⟩ := hcov
  exact hi rel hrel ⟨pos, (sitePos_of_ranges hr rel).trans hpos, hin⟩

/-- Where the code with the export table ends. -/
def E32ImageHeader.codeEnd (h : E32ImageHeader) : ℕ := h.codeOffset.toNat + h.codeSize.toUInt32.toNat

/-- A byte stands in the file, unless a relocation touches it. -/
def Stands (p : Prepared) (header : E32ImageHeader) (out : Bytes) (i : ℕ) (b : UInt8) : Prop :=
  Untouched p header i → out[i]? = some b

/-- The code: every section at its address, zeros in between, the export table behind it. -/
structure CodePlaced (p : Prepared) (out : Bytes) (h : E32ImageHeader) : Prop where
  section_byte : ∀ scn ∈ p.elf.sections, isCode scn → ∀ d_buf, scn.rawdata = some d_buf →
    ∀ k (hk : k < d_buf.length),
      Stands p h out (h.codeOffset.toNat + (scn.sh_addr.toNat - h.codeBase.toNat) + k) d_buf[k]
  gap : ∀ a, h.codeBase.toNat ≤ a → a < h.codeBase.toNat + (elfCode p).length →
    (∀ r ∈ codeRegions p.elf.sections, ¬ r.Covers a) →
      Stands p h out (h.codeOffset.toNat + (a - h.codeBase.toNat)) 0
  text : h.codeSize.toUInt32 = h.textSize.toUInt32
  aligned : h.codeSize.toUInt32.toNat % 4 = 0
  code_end : h.codeEnd = h.codeOffset.toNat + (elfCode p).length + (exportPart p).length
  export_dir : exportPart p ≠ [] → h.exportDirOffset.toNat = h.codeOffset.toNat + (elfCode p).length + 4
  export_byte : ∀ k (hk : k < (exportPart p).length),
    Stands p h out (h.codeOffset.toNat + (elfCode p).length + k) (exportPart p)[k]

/-- The data behind the code, padded with zeros. -/
structure DataPlaced (p : Prepared) (out : Bytes) (h : E32ImageHeader) : Prop where
  size : h.dataSize.toUInt32.toNat = (imageData p).length
  offset : dataParts p.elf.sections ≠ [] → h.dataOffset.toNat = h.codeEnd
  byte : ∀ k (hk : k < (imageData p).length), Stands p h out (h.codeEnd + k) (imageData p)[k]
  import_offset : h.importOffset.toNat =
    h.codeEnd + (imageData p).length + (4 - (imageData p).length % 4) % 4
  padding : ∀ i, h.codeEnd + (imageData p).length ≤ i → i < h.importOffset.toNat → Stands p h out i 0

/-- The import section and the relocation sections behind the data, up to the end. -/
structure TablesPlaced (sorts : Sorts) (s : RelocState) (out : Bytes) (h : E32ImageHeader) : Prop where
  bytes : out.drop h.importOffset.toNat = importSection sorts s ++ codeRelocs sorts h s ++ dataRelocs sorts h s
  code_relocs : h.codeRelocOffset.toNat = h.importOffset.toNat + (importSection sorts s).length
  data_relocs : dataRelocs sorts h s ≠ [] →
    h.dataRelocOffset.toNat = h.codeRelocOffset.toNat + (codeRelocs sorts h s).length

/-- **Body.** How a file and its headers lie, `s` being the lists that the relocations leave. -/
structure BodyLayout (p : Prepared) (sorts : Sorts) (s : RelocState) (out : Bytes) (h : Headers) : Prop where
  code : CodePlaced p out h.header
  data : DataPlaced p out h.header
  tables : TablesPlaced sorts s out h.header
  total : h.headerComp.uncompressedSize.toNat = out.length - h.header.codeOffset.toNat

section
variable {p : Prepared} (hp : p.headers.header.bodyFields = noBody) (hshort : (layout p).1.out.length < 2 ^ 32)
include hp hshort

theorem dataParts_ne_nil (hsize : (layout p).1.header.dataSize.toUInt32 ≠ 0) : dataParts p.elf.sections ≠ [] := by
  obtain ⟨-, -, hdata, -⟩ := layout_sizes hp hshort
  intro h0
  have hempty : (imageData p).length = 0 := by
    rw [imageData, h0]
    rfl
  refine hsize (UInt32.toNat_inj.mp ?_)
  rw [hdata, hempty]
  rfl

theorem layout_dataInFile (hparts : (dataParts p.elf.sections).length ≤ 1) :
    dataStart p = 0 ∧ DataInFile (layout p).1.header (layout p).1.out := by
  have hstart : dataStart p = 0 := by
    unfold dataStart
    have hlen : (dataParts p.elf.sections).dropLast.length = 0 := by
      rw [List.length_dropLast]
      omega
    rw [List.length_eq_zero_iff.mp hlen]
    rfl
  obtain ⟨-, -, hdata, hpos, -⟩ := layout_sizes hp hshort
  have hlen := length_layout hp
  refine ⟨hstart, fun hsize => ?_⟩
  rw [hpos (dataParts_ne_nil hp hshort hsize), hdata, hstart]
  omega

end

theorem codeWithExports_aligned {p : Prepared} (hp : p.headers.header.bodyFields = noBody) :
    (codeWithExports p).length % 4 = 0 := by
  have hsize : p.headers.header.codeSize.toUInt32 = 0 := congrArg BodyFields.codeSize hp
  have hexport : (exportPart p).length % 4 = 0 := by
    unfold exportPart
    split
    · rw [length_exportTable]
      omega
    · rfl
  have helf : (elfCode p).length % 4 = 0 := by
    unfold elfCode codePart codePadding
    simp only [hsize, UInt32.add_zero, UInt32.zero_add]
    rw [List.length_append, List.length_replicate, toNat_padding, UInt32.toNat_ofNat']
    omega
  rw [codeWithExports, List.length_append]
  omega

theorem dataPadding_eq (p : Prepared) :
    dataPadding p = List.replicate ((4 - (imageData p).length % 4) % 4) 0 := by
  unfold dataPadding
  rw [toNat_padding, UInt32.toNat_ofNat']
  congr 1
  omega

theorem getElem?_append_of_some {α : Type} {a b : List α} {j : ℕ} {x : α} (h : a[j]? = some x) :
    (a ++ b)[j]? = some x := by
  obtain ⟨hlt, -⟩ := List.getElem?_eq_some_iff.mp h
  rw [List.getElem?_append_left hlt, h]

section
variable {p : Prepared} (hp : p.headers.header.bodyFields = noBody)
variable (hasc : Ascending p.headers.header.codeBase.toNat (codeRegions p.elf.sections))
include hp hasc

theorem elfCode_section {scn : Elf_Scn} {d_buf : Bytes} {k : ℕ} (hmem : scn ∈ p.elf.sections) (hcode : isCode scn)
    (hd : scn.rawdata = some d_buf) (hk : k < d_buf.length) :
    (elfCode p)[scn.sh_addr.toNat - p.headers.header.codeBase.toNat + k]? = some d_buf[k] := by
  have hregion : (⟨scn.sh_addr.toNat, d_buf⟩ : Region UInt8) ∈ codeRegions p.elf.sections := by
    refine List.mem_filterMap.mpr ⟨scn, hmem, ?_⟩
    rw [codeRegion, if_pos hcode, hd]
    rfl
  have hcell := getElem?_spread_of_mem 0 hasc _ hregion k hk
  rw [elfCode_eq hp hasc]
  exact getElem?_append_of_some (hcell.trans (List.getElem?_eq_getElem hk))

theorem elfCode_gap {a : ℕ} (hbase : p.headers.header.codeBase.toNat ≤ a)
    (hend : a < p.headers.header.codeBase.toNat + (elfCode p).length)
    (hgap : ∀ r ∈ codeRegions p.elf.sections, ¬ r.Covers a) :
    (elfCode p)[a - p.headers.header.codeBase.toNat]? = some 0 := by
  have hlen := length_spread (0 : UInt8) hasc
  rw [elfCode_eq hp hasc] at hend ⊢
  by_cases ha : a < regionsEnd p.headers.header.codeBase.toNat (codeRegions p.elf.sections)
  · exact getElem?_append_of_some (getElem?_spread_gap 0 hasc hbase ha hgap)
  · rw [List.length_append] at hend
    rw [List.getElem?_append_right (by omega), List.getElem?_replicate, if_pos]
    rw [List.length_replicate] at hend
    omega

end

/-- The header that the tables are written with. -/
def tablesHeader (p : Prepared) : E32ImageHeader := (p.headers.relativeTo p.elf (layout p).1.header).header

theorem buildImage_steps {env : Environment} {p : Prepared} {out : Bytes} {h : Headers}
    (hbuild : buildImage env p = .ok (out, h)) :
    ∃ s, relocate env p (layout p).1.header (startState p) = .ok s ∧
      writeTables env.sorts true true (tablesHeader p) s = (⟨out, h.header⟩, h.headerComp.uncompressedSize) := by
  obtain ⟨s, hrel, hbuild⟩ := bind_eq_ok.mp hbuild
  refine ⟨s, hrel, ?_⟩
  cases hbuild
  rfl

/-- The numbers in a header whose file is below 4 GiB, and the bytes in front of the tables. -/
structure Built (p : Prepared) (out : Bytes) (h : E32ImageHeader) : Prop where
  codeBase : h.codeBase = p.headers.header.codeBase
  codeOffset : h.codeOffset.toNat = CRCSIZE
  codeSize : h.codeSize.toUInt32.toNat = (elfCode p).length + (exportPart p).length
  textSize : h.codeSize.toUInt32 = h.textSize.toUInt32
  exportDir : exportPart p ≠ [] → h.exportDirOffset.toNat = CRCSIZE + (elfCode p).length + 4
  dataSize : h.dataSize.toUInt32.toNat = (imageData p).length
  dataOffset : dataParts p.elf.sections ≠ [] →
    h.dataOffset.toNat = CRCSIZE + (elfCode p).length + (exportPart p).length
  importOffset : h.importOffset.toNat = CRCSIZE + (elfCode p).length + (exportPart p).length +
    (imageData p).length + (4 - (imageData p).length % 4) % 4
  byte : ∀ j b, (bodyBytes p)[j]? = some b → Stands p h out (CRCSIZE + j) b

namespace Built

variable {p : Prepared} {out : Bytes} {h : E32ImageHeader} (hb : Built p out h)
include hb

theorem codeEnd : h.codeEnd = CRCSIZE + ((elfCode p).length + (exportPart p).length) := by
  rw [E32ImageHeader.codeEnd, hb.codeOffset, hb.codeSize]

theorem stands {i j : ℕ} {b : UInt8} (hj : (bodyBytes p)[j]? = some b) (hi : i = CRCSIZE + j) :
    Stands p h out i b := by
  rw [hi]
  exact hb.byte j b hj

theorem codePlaced (hno : p.headers.header.bodyFields = noBody)
    (hasc : Ascending p.headers.header.codeBase.toNat (codeRegions p.elf.sections)) : CodePlaced p out h := by
  refine ⟨?_, ?_, hb.textSize, ?_, ?_, ?_, ?_⟩
  · intro scn hscn hcode d_buf hd k hk
    have hj := elfCode_section hno hasc hscn hcode hd hk
    refine hb.stands (getElem?_append_of_some (getElem?_append_of_some (getElem?_append_of_some hj))) ?_
    rw [hb.codeOffset, hb.codeBase, Nat.add_assoc]
  · intro a hbase ha hgap
    rw [hb.codeBase] at hbase ha ⊢
    have hj := elfCode_gap hno hasc hbase ha hgap
    refine hb.stands (getElem?_append_of_some (getElem?_append_of_some (getElem?_append_of_some hj))) ?_
    rw [hb.codeOffset]
  · have hmod := codeWithExports_aligned hno
    rw [codeWithExports, List.length_append] at hmod
    rw [hb.codeSize]
    exact hmod
  · rw [hb.codeEnd, hb.codeOffset, Nat.add_assoc]
  · intro hne
    rw [hb.exportDir hne, hb.codeOffset]
  · intro k hk
    have hj : (codeWithExports p)[(elfCode p).length + k]? = some (exportPart p)[k] := by
      rw [codeWithExports, List.getElem?_append_right (by omega), Nat.add_sub_cancel_left,
        List.getElem?_eq_getElem hk]
    refine hb.stands (getElem?_append_of_some (getElem?_append_of_some hj)) ?_
    rw [hb.codeOffset, Nat.add_assoc]

theorem dataPlaced : DataPlaced p out h := by
  have hlen : (codeWithExports p).length = (elfCode p).length + (exportPart p).length := by
    rw [codeWithExports, List.length_append]
  refine ⟨hb.dataSize, ?_, ?_, ?_, ?_⟩
  · intro hne
    rw [hb.dataOffset hne, hb.codeEnd, Nat.add_assoc]
  · intro k hk
    have hj : (codeWithExports p ++ imageData p)[(codeWithExports p).length + k]? = some (imageData p)[k] := by
      rw [List.getElem?_append_right (by omega), Nat.add_sub_cancel_left, List.getElem?_eq_getElem hk]
    refine hb.stands (getElem?_append_of_some hj) ?_
    rw [hb.codeEnd, hlen, Nat.add_assoc]
  · rw [hb.importOffset, hb.codeEnd]
    omega
  · intro i hi hi'
    have himport := hb.importOffset
    rw [hb.codeEnd] at hi
    have hj : (bodyBytes p)[i - CRCSIZE]? = some 0 := by
      rw [bodyBytes, List.getElem?_append_right (by rw [List.length_append]; omega), dataPadding_eq,
        List.getElem?_replicate, if_pos]
      rw [List.length_append]
      omega
    exact hb.stands hj (by omega)

end Built

/-- A file that is the layout but for its relocated words is built as it should be. -/
theorem layout_built {p : Prepared} {out : Bytes} (hno : p.headers.header.bodyFields = noBody)
    (hshort : (layout p).1.out.length < 2 ^ 32) (hparts : (dataParts p.elf.sections).length ≤ 1)
    (hframe : Framed (layout p).1.header (relocationEntries p.elf) (layout p).1.out out) :
    Built p out (layout p).1.header := by
  obtain ⟨hout, -, hfields⟩ := layout_shape hno
  obtain ⟨hoffset, hcode, hdata, hpos, himport⟩ := layout_sizes hno hshort
  obtain ⟨hstart, -⟩ := layout_dataInFile hno hshort hparts
  have htotal := length_layout hno
  have hlen : (codeWithExports p).length = (elfCode p).length + (exportPart p).length := by
    rw [codeWithExports, List.length_append]
  have hpad : (dataPadding p).length = (4 - (imageData p).length % 4) % 4 := by
    rw [dataPadding_eq, List.length_replicate]
  have hempty : emptyOut.length = CRCSIZE := List.length_replicate
  refine ⟨layout_codeBase p, hoffset, hcode.trans hlen, ?_, ?_, hdata, ?_, ?_, ?_⟩
  · exact (congrArg BodyFields.codeSize hfields).trans (congrArg BodyFields.textSize hfields).symm
  · intro hne
    have hdir := congrArg BodyFields.exportDirOffset hfields
    have hcond : p.headers.isDll ∧ p.exportList.exports.length ≠ 0 := by
      by_contra h0
      exact hne (if_neg h0)
    have htable : (exportPart p).length = 4 + 4 * p.exportList.exports.length := by
      rw [exportPart, if_pos hcond, length_exportTable]
    simp only [if_pos hcond] at hdir
    have hdir' : (layout p).1.header.exportDirOffset = ftell (emptyOut ++ elfCode p) + 4 := hdir
    rw [hdir', UInt32.toNat_add, ftell, UInt32.toNat_ofNat', List.length_append, hempty]
    show (_ + 4) % _ = _
    omega
  · intro hne
    rw [hpos hne, hstart]
    omega
  · rw [himport]
    omega
  · intro j b hj hun
    obtain ⟨hlt, -⟩ := List.getElem?_eq_some_iff.mp hj
    rw [hframe.2 _ hun, hout, List.getElem?_append_right (by omega), hempty, Nat.add_sub_cancel_left, hj]

theorem Built.withTables {p : Prepared} {out : Bytes} {h : E32ImageHeader} (hb : Built p out h) (tables : Bytes)
    (entryPoint : UInt32) (libraries : ℕ) (codeReloc dataReloc : UInt32) :
    Built p (out ++ tables)
      (E32ImageHeader.withTables { h with entryPoint := entryPoint } libraries codeReloc dataReloc) where
  codeBase := hb.codeBase
  codeOffset := hb.codeOffset
  codeSize := hb.codeSize
  textSize := hb.textSize
  exportDir := hb.exportDir
  dataSize := hb.dataSize
  dataOffset := hb.dataOffset
  importOffset := hb.importOffset
  byte j b hj hun := getElem?_append_of_some (hb.byte j b hj (untouched_of_ranges rfl hun))

theorem tablesPlaced (sorts : Sorts) {h : E32ImageHeader} {s : RelocState} {out : Bytes}
    (hpos : h.importOffset.toNat = s.out.length)
    (hout : s.out ++ (importSection sorts s ++ codeRelocs sorts h s ++ dataRelocs sorts h s) = out)
    (hshort : out.length < 2 ^ 32) :
    TablesPlaced sorts s out (h.withTables s.importList.numLibraries
      (UInt32.ofNat (s.out.length + (importSection sorts s).length))
      (if s.dataRelocationList.count ≠ 0 then
        UInt32.ofNat (s.out.length + (importSection sorts s).length + (codeRelocs sorts h s).length)
      else h.dataRelocOffset)) := by
  have hlen := congrArg List.length hout
  rw [List.length_append, List.length_append, List.length_append] at hlen
  have hcode : (UInt32.ofNat (s.out.length + (importSection sorts s).length)).toNat =
      s.out.length + (importSection sorts s).length := by
    rw [UInt32.toNat_ofNat', Nat.mod_eq_of_lt (by omega)]
  refine ⟨?_, ?_, fun hne => ?_⟩
  · show out.drop h.importOffset.toNat = _
    rw [hpos, ← hout, List.drop_left]
    rfl
  · show (UInt32.ofNat _).toNat = h.importOffset.toNat + _
    rw [hpos, hcode]
  · have hcount : s.dataRelocationList.count ≠ 0 := by
      intro h0
      exact hne (if_neg (not_not.mpr h0))
    show (ite _ _ _ : UInt32).toNat = (UInt32.ofNat _).toNat + (codeRelocs sorts h s).length
    rw [if_pos hcount, hcode, UInt32.toNat_ofNat', Nat.mod_eq_of_lt (by omega)]

/-- **Body of an image.**  With the code sections in ascending order from `codeBase`, at most one section of
data, and no relocated word that leaves the code or the initialised data, an image below 4 GiB has its parts
where the header says, one behind the other. -/
theorem buildImage_body {env : Environment} {options : List LongOption} {p : Prepared} {out : Bytes} {h : Headers}
    (hp : prepare env options = .ok p)
    (hasc : Ascending p.headers.header.codeBase.toNat (codeRegions p.elf.sections))
    (hparts : (dataParts p.elf.sections).length ≤ 1)
    (hinside : ∀ rel ∈ relocationEntries p.elf, rel.Inside (layout p).1.header)
    (hbuild : buildImage env p = .ok (out, h)) (hshort : out.length < 2 ^ 32) :
    ∃ s, relocate env p (layout p).1.header (startState p) = .ok s ∧ BodyLayout p env.sorts s out h := by
  have hno := prepare_noBody hp
  obtain ⟨s, hrel, hwrite⟩ := buildImage_steps hbuild
  have hle := writeTables_length_le env.sorts (tablesHeader p) s
  rw [hwrite] at hle
  have hshort' : (layout p).1.out.length < 2 ^ 32 := lt_of_le_of_lt ((relocate_length_le hrel).trans hle) hshort
  obtain ⟨-, -, -, -, himport⟩ := layout_sizes hno hshort'
  obtain ⟨-, hinfile⟩ := layout_dataInFile hno hshort' hparts
  have hframe := relocate_framed (layout_ranges hno hshort') hinfile hinside rfl hrel
  have hpos : (tablesHeader p).importOffset.toNat = s.out.length := himport.trans hframe.1.symm
  rw [writeTables_eq env.sorts hpos] at hwrite
  obtain ⟨hfile, hsize⟩ := Prod.mk.inj hwrite
  obtain ⟨hout, hheader⟩ := Image.mk.inj hfile
  have hbuilt : Built p out h.header := by
    rw [← hout, ← hheader]
    exact (layout_built hno hshort' hparts hframe).withTables _ _ _ _ _
  refine ⟨s, hrel, hbuilt.codePlaced hno hasc, hbuilt.dataPlaced, ?_, ?_⟩
  · rw [← hheader]
    exact tablesPlaced env.sorts hpos hout hshort
  · have hoffset : (tablesHeader p).codeOffset = h.header.codeOffset := by
      rw [← hheader]
      rfl
    have hlen : CRCSIZE ≤ out.length := by
      have htotal := length_layout hno
      rw [← hout, List.length_append, hframe.1]
      show _ ≤ (layout p).1.out.length + _
      omega
    have hout' : (UInt32.ofNat out.length).toNat = out.length := by
      rw [UInt32.toNat_ofNat', Nat.mod_eq_of_lt hshort]
    rw [← hsize, hout, hoffset, UInt32.toNat_sub_of_le, hout']
    rw [UInt32.le_iff_toNat_le, hbuilt.codeOffset, hout']
    exact hlen

/-! ### Images that show the limits -/

theorem length_elfCode_le (p : Prepared) : (elfCode p).length ≤ (codeWithExports p).length := by
  rw [codeWithExports, List.length_append]
  omega

theorem startState_out (p : Prepared) : (startState p).out = (layout p).1.out := rfl

/-- A word of code that is relocated against a defined symbol. -/
def sampleDefined : Elf := sampleElf [3] [⟨0x8000, 0x102⟩]

/-- A section that ends at the end of the address space. -/
def sampleHuge : Elf where
  file := []
  e_entry := 0
  phdrs := []
  sections := [⟨arg ".text", 1, SHF_ALLOC, 0xfffffffc, 4, 0, .other, some [1, 0, 0, 0], by rintro d ⟨⟩; decide⟩]
  elf_strptr _ _ := none

theorem codeRegions_sampleHuge : codeRegions sampleHuge.sections = [⟨0xfffffffc, [1, 0, 0, 0]⟩] := by decide +kernel

theorem length_sampleHuge : 2 ^ 32 ≤ (elfCode (samplePrepared sampleHuge)).length := by
  have hno : (samplePrepared sampleHuge).headers.header.bodyFields = noBody := prepare_noBody (prepare_sample _)
  have hbase : (samplePrepared sampleHuge).headers.header.codeBase.toNat = 0 := rfl
  have hasc : Ascending (samplePrepared sampleHuge).headers.header.codeBase.toNat
      (codeRegions (samplePrepared sampleHuge).elf.sections) := by
    rw [hbase]
    show Ascending 0 (codeRegions sampleHuge.sections)
    rw [codeRegions_sampleHuge]
    exact ⟨Nat.zero_le _, trivial⟩
  have hlen := length_spread (0 : UInt8) hasc
  rw [elfCode_eq hno hasc, List.length_append]
  have hend : regionsEnd (samplePrepared sampleHuge).headers.header.codeBase.toNat
      (codeRegions (samplePrepared sampleHuge).elf.sections) = 2 ^ 32 := by
    show regionsEnd _ (codeRegions sampleHuge.sections) = _
    rw [codeRegions_sampleHuge]
    rfl
  omega

/-- The word is not that of the section any more, and an image of 4 GiB is longer than its header can say. -/
theorem buildImage_limits :
    (∃ r, prepare (plainEnvironment (some sampleDefined) id) sampleOptions = .ok (samplePrepared sampleDefined) ∧
      Ascending (samplePrepared sampleDefined).headers.header.codeBase.toNat (codeRegions sampleDefined.sections) ∧
      (dataParts sampleDefined.sections).length ≤ 1 ∧
      buildImage (plainEnvironment (some sampleDefined) id) (samplePrepared sampleDefined) = .ok r ∧
      ¬ ∀ scn ∈ sampleDefined.sections, isCode scn → ∀ d_buf, scn.rawdata = some d_buf → ∀ k < d_buf.length,
        r.1[r.2.header.codeOffset.toNat + (scn.sh_addr.toNat - r.2.header.codeBase.toNat) + k]? = d_buf[k]?) ∧
    ∃ r, prepare (plainEnvironment (some sampleHuge) id) sampleOptions = .ok (samplePrepared sampleHuge) ∧
      Ascending (samplePrepared sampleHuge).headers.header.codeBase.toNat (codeRegions sampleHuge.sections) ∧
      (dataParts sampleHuge.sections).length ≤ 1 ∧
      buildImage (plainEnvironment (some sampleHuge) id) (samplePrepared sampleHuge) = .ok r ∧
      r.2.headerComp.uncompressedSize.toNat ≠ r.1.length - CRCSIZE := by
  constructor
  · obtain ⟨r, hr, hb⟩ := exists_of_any
      (r := buildImage (plainEnvironment (some sampleDefined) id) (samplePrepared sampleDefined))
      (p := fun r => r.1[CRCSIZE]? == some 5 && r.2.header.codeOffset.toNat == CRCSIZE &&
        r.2.header.codeBase.toNat == 0x8000) (by decide +kernel)
    simp only [Bool.and_eq_true, beq_iff_eq] at hb
    obtain ⟨⟨hbyte, hoffset⟩, hbase⟩ := hb
    refine ⟨r, prepare_sample _, by decide +kernel, by decide +kernel, hr, fun hall => ?_⟩
    have h0 := hall _ List.mem_cons_self (by decide +kernel) _ rfl 0 (by decide)
    rw [hoffset, hbase] at h0
    have h1 : (0x8000 : UInt32).toNat - 0x8000 = 0 := rfl
    rw [h1] at h0
    exact absurd (hbyte.symm.trans h0) (by decide)
  · obtain ⟨⟨out, h⟩, hr⟩ : ∃ r,
        buildImage (plainEnvironment (some sampleHuge) id) (samplePrepared sampleHuge) = .ok r := ⟨_, rfl⟩
    refine ⟨(out, h), prepare_sample _, ?_, by decide +kernel, hr, fun heq => ?_⟩
    · rw [codeRegions_sampleHuge]
      exact ⟨Nat.zero_le _, trivial⟩
    · obtain ⟨s, hrel, hwrite⟩ := buildImage_steps hr
      have hle := writeTables_length_le (plainEnvironment (some sampleHuge) id).sorts
        (tablesHeader (samplePrepared sampleHuge)) s
      rw [hwrite] at hle
      have hstart := relocate_length_le hrel
      have hlen := length_layout (prepare_noBody (prepare_sample sampleHuge))
      have hcode := length_elfCode_le (samplePrepared sampleHuge)
      have hhuge := length_sampleHuge
      have hsize := h.headerComp.uncompressedSize.toNat_lt
      rw [startState_out] at hstart
      simp only at hle heq
      omega

/-- Two sections of code with a gap between them and one of data, and a relocated word in the code and in the data. -/
def sampleData : Elf where
  file := []
  e_entry := 0x8000
  phdrs := [⟨PT_LOAD, 0, 0x8000, 20, 20, PF_R ||| PF_X⟩, ⟨PT_LOAD, 0, 0x400000, 8, 12, PF_R ||| PF_W⟩]
  sections := (sampleElf [3] [⟨0x8004, 0x102⟩, ⟨0x400004, 0x102⟩]).sections ++ [
    ⟨arg ".init", 1, SHF_ALLOC, 0x8010, 4, 0, .other, some [7, 0, 0, 0], by rintro d ⟨⟩; decide⟩,
    ⟨arg ".data", 1, SHF_ALLOC, 0x400000, 8, 0, .other, some [3, 0, 0, 0, 4, 0, 0, 0], by rintro d ⟨⟩; decide⟩]
  elf_strptr _ _ := some (arg "a")

theorem buildImage_body_sample :
    ∃ r s, buildImage (plainEnvironment (some sampleData) id) (samplePrepared sampleData) = .ok r ∧
      BodyLayout (samplePrepared sampleData) (plainEnvironment (some sampleData) id).sorts s r.1 r.2 := by
  obtain ⟨⟨out, h⟩, hr, hb⟩ := exists_of_any
    (r := buildImage (plainEnvironment (some sampleData) id) (samplePrepared sampleData))
    (p := fun r => decide (r.1.length < 2 ^ 32)) (by decide +kernel)
  have hinside : ∀ rel ∈ relocationEntries sampleData, rel.Inside (layout (samplePrepared sampleData)).1.header := by
    rintro rel (- | ⟨_, - | ⟨_, ⟨⟩⟩⟩)
    · exact ⟨fun _ => by decide +kernel, fun hnot => absurd (by decide +kernel) hnot⟩
    · exact ⟨fun hin => absurd hin (by decide +kernel), fun _ _ => by decide +kernel⟩
  obtain ⟨s, -, hbody⟩ := buildImage_body (prepare_sample sampleData) (by decide +kernel) (by decide +kernel)
    hinside hr (of_decide_eq_true hb)
  exact ⟨(out, h), s, hr, hbody⟩

end GnuPoc.E32
