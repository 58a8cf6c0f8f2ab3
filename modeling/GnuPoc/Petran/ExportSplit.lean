import GnuPoc.Petran.PeFile

/-!
# GnuPoc.Petran.ExportSplit — what `Normalise` leaves of `.rdata` (`pe_file.cpp`)

The size of the export directory comes off the end of `.rdata`, wherever the directory stands.
-/

namespace GnuPoc.Petran

open GnuPoc.Lib

/-- The offset of the export directory in `.rdata`. -/
def PEFile.exportOffset (f : PEFile) (rdata : PeSection) : ℕ := f.iExportDataDir.toNat - rdata.VirtualAddress.toNat

/-- The export directory lies inside of `.rdata`, and there is no `.edata`. -/
structure ExportsInside (f : PEFile) (rdata : PeSection) : Prop where
  noEdata : f.sections .KExportSection = none
  directory : f.iExportDataDir ≠ 0
  const : f.sections .KConstSection = some rdata
  begins : VirtualAddressInSection f.iExportDataDir rdata = true
  ends : f.exportOffset rdata + f.iExportDirSize.toNat ≤ rdata.VirtualSize.toNat

/-- A byte of `.rdata` that is not in the export directory, by its offset. -/
def PEFile.Outside (f : PEFile) (rdata : PeSection) (i : ℕ) : Prop :=
  i < rdata.VirtualSize.toNat ∧ (i < f.exportOffset rdata ∨ f.exportOffset rdata + f.iExportDirSize.toNat ≤ i)

/-- A byte of `.rdata` is where it was, and its address is one of the constant section. -/
structure Kept (rdata : PeSection) (f' : PEFile) (i : ℕ) : Prop where
  byte : ∃ s, f'.sections .KConstSection = some s ∧ s.VirtualAddress = rdata.VirtualAddress ∧ s.data[i]? = rdata.data[i]?
  found : f'.FindSectionByVa (rdata.VirtualAddress + UInt32.ofNat i) = some .KConstSection

/-- The imports of `.idata` can be counted. -/
def PEFile.ImportsCounted (f : PEFile) : Prop := ∀ s, f.sections .KImportSection = some s → ∃ n, NumberOfImports s = .ok n

/-- A section that stays has the address, and is looked at after the constant section. -/
def PEFile.CoveredLater (f : PEFile) (va : UInt32) : Prop :=
  (∃ i ∈ [Section.KDataSection, .KBssSection, .KCrtSection, .KRelocSection], f.covers va i = true) ∨
    f.covers va .KImportSection = true ∧ ∀ s, f.sections .KImportSection = some s → NumberOfImports s ≠ .ok 0

/-! ### The two steps -/

/-- `.rdata` without its last bytes, and the export directory as a section. -/
structure Split (f : PEFile) (rdata cut edata : PeSection) (f' : PEFile) : Prop where
  sections : f' = { f with
    sections := Function.update (Function.update f.sections .KExportSection (some edata)) .KConstSection (some cut) }
  address : cut.VirtualAddress = rdata.VirtualAddress
  size : cut.VirtualSize = rdata.VirtualSize - f.iExportDirSize
  data : cut.data = rdata.data.take (rdata.SizeOfRawData - f.iExportDirSize).toNat
  edataAddress : edata.VirtualAddress = f.iExportDataDir
  edataSize : edata.VirtualSize = f.iExportDirSize

theorem copyExports_ok {va size : UInt32} {rdata : PeSection} (hint : size.toNat < 2147483648)
    (hroom : size = 0 ∨ va.toNat - rdata.VirtualAddress.toNat + size.toNat ≤ rdata.data.length) :
    ∃ edata, copyExports va size rdata = .ok edata ∧ edata.VirtualAddress = va ∧ edata.VirtualSize = size := by
  rw [copyExports, if_neg (not_le.mpr hint), dif_pos hroom]
  exact ⟨_, rfl, rfl, rfl⟩

theorem cutSection_ok {size : UInt32} {s : PeSection} (h : (s.SizeOfRawData - size).toNat ≤ s.data.length) :
    ∃ cut, cutSection size s = .ok cut ∧ cut.VirtualAddress = s.VirtualAddress ∧ cut.VirtualSize = s.VirtualSize - size ∧
      cut.data = s.data.take (s.SizeOfRawData - size).toNat := by
  rw [cutSection, dif_pos h]
  exact ⟨_, rfl, rfl, rfl, rfl⟩

theorem splitExports_ok {f : PEFile} {rdata : PeSection} (h : ExportsInside f rdata) (hint : f.iExportDirSize.toNat < 2147483648)
    (hroom : f.iExportDirSize = 0 ∨ f.exportOffset rdata + f.iExportDirSize.toNat ≤ rdata.SizeOfRawData.toNat) :
    ∃ f' cut edata, f.splitExports = .ok f' ∧ Split f rdata cut edata f' := by
  have hcut : (rdata.SizeOfRawData - f.iExportDirSize).toNat ≤ rdata.data.length := by
    rw [rdata.length_data]
    rcases hroom with hzero | hroom
    · rw [hzero, UInt32.sub_zero]
    · rw [UInt32.toNat_sub_of_le _ _ (UInt32.le_iff_toNat_le.mpr (by omega))]
      omega
  have hcopy : f.iExportDirSize = 0 ∨ f.iExportDataDir.toNat - rdata.VirtualAddress.toNat + f.iExportDirSize.toNat ≤
      rdata.data.length := by
    rw [rdata.length_data]
    exact hroom
  obtain ⟨edata, hedata, heva, hesize⟩ := copyExports_ok hint hcopy
  obtain ⟨cut, hcutok, hva, hsize, hdata⟩ := cutSection_ok hcut
  refine ⟨_, cut, edata, ?_, ⟨rfl, hva, hsize, hdata, heva, hesize⟩⟩
  rw [PEFile.splitExports, if_pos ⟨h.directory, by rw [h.noEdata]; rfl⟩, h.const]
  dsimp only
  rw [if_neg (not_not.mpr h.begins), hedata, outcome_ok_bind, hcutok, outcome_ok_bind]

theorem splitExports_room {f f' : PEFile} {rdata : PeSection} (h : ExportsInside f rdata) (hok : f.splitExports = .ok f') :
    f.iExportDirSize.toNat < 2147483648 ∧
      (f.iExportDirSize = 0 ∨ f.exportOffset rdata + f.iExportDirSize.toNat ≤ rdata.SizeOfRawData.toNat) := by
  rw [PEFile.splitExports, if_pos ⟨h.directory, by rw [h.noEdata]; rfl⟩, h.const] at hok
  dsimp only at hok
  rw [if_neg (not_not.mpr h.begins)] at hok
  obtain ⟨edata, hcopy, -⟩ := bind_eq_ok.mp hok
  rw [copyExports] at hcopy
  split at hcopy
  · cases hcopy
  · next hint =>
    split at hcopy
    · next hroom =>
      rw [rdata.length_data] at hroom
      exact ⟨not_le.mp hint, hroom⟩
    · cases hcopy

/-- The second step takes away `.idata` or nothing. -/
theorem dropImports_ok {f : PEFile} (h : f.ImportsCounted) : ∃ f', f.dropImports = .ok f' := by
  rw [PEFile.dropImports]
  cases hs : f.sections .KImportSection with
  | none => exact ⟨f, rfl⟩
  | some s =>
    obtain ⟨n, hn⟩ := h s hs
    dsimp only
    rw [hn, outcome_ok_bind]
    exact ⟨_, rfl⟩

theorem dropImports_counted {f f' : PEFile} (h : f.dropImports = .ok f') : f.ImportsCounted := by
  intro s hs
  rw [PEFile.dropImports, hs] at h
  obtain ⟨n, hn, -⟩ := bind_eq_ok.mp h
  exact ⟨n, hn⟩

theorem dropImports_covers {f f' : PEFile} (h : f.dropImports = .ok f') (va : UInt32) (i : Section) :
    f'.covers va i = true ↔ f.covers va i = true ∧
      (i = .KImportSection → ∀ s, f.sections .KImportSection = some s → NumberOfImports s ≠ .ok 0) := by
  rw [PEFile.dropImports] at h
  cases hs : f.sections .KImportSection with
  | none =>
    rw [hs] at h
    rw [← Except.ok.inj h]
    exact ⟨fun hc => ⟨hc, fun _ s hs' => by cases hs'⟩, fun hc => hc.1⟩
  | some s =>
    rw [hs] at h
    obtain ⟨n, hn, hf⟩ := bind_eq_ok.mp h
    rw [← Except.ok.inj hf]
    by_cases hzero : n = 0
    · rw [if_pos hzero, PEFile.covers]
      dsimp only
      by_cases hi : i = .KImportSection
      · subst hi
        rw [Function.update_self]
        constructor
        · intro hc
          cases hc
        · rintro ⟨-, hne⟩
          exact absurd (by rw [hn, hzero]) (hne rfl s rfl)
      · rw [Function.update_of_ne hi]
        exact ⟨fun hc => ⟨hc, fun himp => absurd himp hi⟩, fun hc => hc.1⟩
    · rw [if_neg hzero]
      refine ⟨fun hc => ⟨hc, ?_⟩, fun hc => hc.1⟩
      intro _ s' hs' hn'
      rw [← Option.some.inj hs', hn] at hn'
      exact hzero (Except.ok.inj hn')

theorem dropImports_const {f f' : PEFile} (h : f.dropImports = .ok f') : f'.sections .KConstSection = f.sections .KConstSection := by
  rw [PEFile.dropImports] at h
  cases hs : f.sections .KImportSection with
  | none =>
    rw [hs] at h
    rw [← Except.ok.inj h]
  | some s =>
    rw [hs] at h
    obtain ⟨n, -, hf⟩ := bind_eq_ok.mp h
    rw [← Except.ok.inj hf]
    split
    · dsimp only
      rw [Function.update_of_ne (by decide)]
    · rfl

/-! ### After both -/

section
variable {f f₁ f' : PEFile} {rdata cut edata : PeSection}

theorem Split.const (h : Split f rdata cut edata f₁) : f₁.sections .KConstSection = some cut := by
  rw [h.sections]
  dsimp only
  rw [Function.update_self]

theorem Split.export (h : Split f rdata cut edata f₁) : f₁.sections .KExportSection = some edata := by
  rw [h.sections]
  dsimp only
  rw [Function.update_of_ne (by decide), Function.update_self]

theorem Split.other (h : Split f rdata cut edata f₁) {i : Section} (hc : i ≠ .KConstSection) (he : i ≠ .KExportSection) :
    f₁.sections i = f.sections i := by
  rw [h.sections]
  dsimp only
  rw [Function.update_of_ne hc, Function.update_of_ne he]

/-- The addresses of what is left of `.rdata`. -/
theorem Split.covers_const (h : Split f rdata cut edata f₁) (hin : ExportsInside f rdata) {i : ℕ} (hi : i < rdata.VirtualSize.toNat) :
    f₁.covers (rdata.VirtualAddress + UInt32.ofNat i) .KConstSection = true ↔
      i < rdata.VirtualSize.toNat - f.iExportDirSize.toNat := by
  have hend := end_lt hin.begins
  have hends := hin.ends
  have hsize : cut.VirtualSize.toNat = rdata.VirtualSize.toNat - f.iExportDirSize.toNat := by
    rw [h.size, UInt32.toNat_sub_of_le _ _ (UInt32.le_iff_toNat_le.mpr (by omega))]
  rw [PEFile.covers, h.const, Option.any_some, ← h.address,
    inSection_offset (by rw [h.address]; omega) (by rw [h.address]; omega), hsize]

theorem Split.covers_edata (h : Split f rdata cut edata f₁) (hin : ExportsInside f rdata) {i : ℕ} (hi : f.Outside rdata i) :
    f₁.covers (rdata.VirtualAddress + UInt32.ofNat i) .KExportSection = false := by
  have hend := end_lt hin.begins
  have hends := hin.ends
  have hbegins := ((inSection_iff _ _).mp hin.begins).1
  obtain ⟨hlt, hout⟩ := hi
  rw [PEFile.exportOffset] at hout hends
  have hva : (rdata.VirtualAddress + UInt32.ofNat i).toNat = rdata.VirtualAddress.toNat + i := by
    rw [UInt32.toNat_add, UInt32.toNat_ofNat']
    omega
  rw [PEFile.covers, h.export, Option.any_some, Bool.eq_false_iff, ne_eq, inSection_iff, h.edataAddress, h.edataSize, hva]
  omega

/-- The split changes no answer about the later sections. -/
theorem Split.coveredLater (h : Split f rdata cut edata f₁) (hdrop : f₁.dropImports = .ok f') (va : UInt32) :
    f.CoveredLater va ↔ ∃ i ∈ behindConst, i ≠ .KExportSection ∧ f'.covers va i = true := by
  have hsame : ∀ i, i ≠ .KConstSection → i ≠ .KExportSection → f₁.covers va i = f.covers va i := by
    intro i hc he
    rw [PEFile.covers, h.other hc he, PEFile.covers]
  have himport : f₁.sections .KImportSection = f.sections .KImportSection := h.other (by decide) (by decide)
  constructor
  · rintro (⟨i, hi, hcov⟩ | ⟨hcov, hcount⟩)
    · have hfour : ∀ i ∈ [Section.KDataSection, .KBssSection, .KCrtSection, .KRelocSection],
          i ∈ behindConst ∧ i ≠ .KExportSection ∧ i ≠ .KConstSection ∧ i ≠ .KImportSection := by decide
      obtain ⟨hmem, hexp, hconst, himp⟩ := hfour i hi
      refine ⟨i, hmem, hexp, (dropImports_covers hdrop va i).mpr ⟨?_, fun heq => absurd heq himp⟩⟩
      rw [hsame i hconst hexp]
      exact hcov
    · refine ⟨.KImportSection, by decide, by decide, (dropImports_covers hdrop va _).mpr ⟨?_, fun _ => ?_⟩⟩
      · rw [hsame _ (by decide) (by decide)]
        exact hcov
      · rw [himport]
        exact hcount
  · rintro ⟨i, hi, hexp, hcov⟩
    obtain ⟨hcov, hcount⟩ := (dropImports_covers hdrop va i).mp hcov
    have hconst : i ≠ .KConstSection := by
      rintro rfl
      exact absurd hi (by decide)
    rw [hsame i hconst hexp] at hcov
    by_cases himp : i = .KImportSection
    · rw [himport] at hcount
      exact .inr ⟨himp ▸ hcov, hcount himp⟩
    · have hfour : ∀ i ∈ behindConst, i ≠ .KExportSection → i ≠ .KImportSection →
          i ∈ [Section.KDataSection, .KBssSection, .KCrtSection, .KRelocSection] := by decide
      exact .inl ⟨i, hfour i hi hexp himp, hcov⟩

end

/-- **When `Normalise` keeps `.rdata`.** -/
theorem normalise_keeps_iff {f : PEFile} {rdata : PeSection} (h : ExportsInside f rdata) :
    (∃ f', f.Normalise = .ok f' ∧ ∀ i, f.Outside rdata i → Kept rdata f' i) ↔
      f.iExportDirSize.toNat < 2147483648 ∧
      (f.iExportDirSize = 0 ∨ (f.exportOffset rdata + f.iExportDirSize.toNat = rdata.VirtualSize.toNat ∧
        rdata.VirtualSize.toNat ≤ rdata.SizeOfRawData.toNat)) ∧
      f.ImportsCounted ∧ ∀ i, f.Outside rdata i → ¬ f.CoveredLater (rdata.VirtualAddress + UInt32.ofNat i) := by
  have hends := h.ends
  constructor
  · rintro ⟨f', hnorm, hkept⟩
    obtain ⟨f₁, hsplit, hdrop⟩ := bind_eq_ok.mp hnorm
    obtain ⟨hint, hroom⟩ := splitExports_room h hsplit
    obtain ⟨f₂, cut, edata, hsplit₂, hs⟩ := splitExports_ok h hint hroom
    rw [hsplit] at hsplit₂
    obtain rfl := Except.ok.inj hsplit₂
    refine ⟨hint, ?_, ?_, ?_⟩
    · by_cases hzero : f.iExportDirSize = 0
      · exact .inl hzero
      · right
        have hpos : 0 < f.iExportDirSize.toNat := by
          rw [Nat.pos_iff_ne_zero]
          exact fun h0 => hzero (UInt32.toNat_inj.mp h0)
        have hlast : f.exportOffset rdata + f.iExportDirSize.toNat = rdata.VirtualSize.toNat := by
          by_contra hne
          have hout : f.Outside rdata (rdata.VirtualSize.toNat - 1) := ⟨by omega, .inr (by omega)⟩
          have hcov := ((f'.find_const_iff _).mp (hkept _ hout).found).1
          have hlt := (hs.covers_const h hout.1).mp ((dropImports_covers hdrop _ _).mp hcov).1
          omega
        exact ⟨hlast, by rcases hroom with h0 | hle; exact absurd h0 hzero; omega⟩
    · intro s hs'
      refine dropImports_counted hdrop s ?_
      rw [hs.other (by decide) (by decide)]
      exact hs'
    · intro i hout hlater
      obtain ⟨j, hj, -, hcov⟩ := (hs.coveredLater hdrop _).mp hlater
      have hnone := ((f'.find_const_iff _).mp (hkept i hout).found).2 j hj
      rw [hcov] at hnone
      cases hnone
  · rintro ⟨hint, hsize, hcount, hlater⟩
    have hroom : f.iExportDirSize = 0 ∨ f.exportOffset rdata + f.iExportDirSize.toNat ≤ rdata.SizeOfRawData.toNat := by
      rcases hsize with hzero | ⟨hlast, hraw⟩
      · exact .inl hzero
      · exact .inr (by omega)
    obtain ⟨f₁, cut, edata, hsplit, hs⟩ := splitExports_ok h hint hroom
    obtain ⟨f', hdrop⟩ := dropImports_ok (f := f₁) fun s hs' => hcount s (by
      rw [hs.other (by decide) (by decide)] at hs'
      exact hs')
    refine ⟨f', ?_, ?_⟩
    · rw [PEFile.Normalise, hsplit, outcome_ok_bind, hdrop]
    · intro i hout
      have hfront : i < rdata.VirtualSize.toNat - f.iExportDirSize.toNat := by
        obtain ⟨hlt, hor⟩ := hout
        rcases hsize with hzero | ⟨hlast, -⟩
        · rw [hzero]
          exact hlt
        · omega
      refine ⟨⟨cut, ?_, hs.address, ?_⟩, (f'.find_const_iff _).mpr ⟨?_, ?_⟩⟩
      · rw [dropImports_const hdrop, hs.const]
      · rw [hs.data]
        rcases hsize with hzero | ⟨hlast, hraw⟩
        · rw [hzero, UInt32.sub_zero, ← rdata.length_data, List.take_length]
        · refine List.getElem?_take_of_lt ?_
          rw [UInt32.toNat_sub_of_le _ _ (UInt32.le_iff_toNat_le.mpr (by omega))]
          omega
      · refine (dropImports_covers hdrop _ _).mpr ⟨(hs.covers_const h hout.1).mpr hfront, ?_⟩
        intro hc
        cases hc
      · intro j hj
        rw [Bool.eq_false_iff]
        intro hcov
        by_cases hexp : j = .KExportSection
        · have hno := hs.covers_edata h hout
          rw [hexp] at hcov
          rw [((dropImports_covers hdrop _ _).mp hcov).1] at hno
          cases hno
        · exact hlater i hout ((hs.coveredLater hdrop _).mpr ⟨j, hj, hexp, hcov⟩)

/-- A file whose `.rdata` of eight bytes has its export directory at an offset. -/
def eightBytes (exportVa : UInt32) : PEFile where
  sections
    | .KConstSection => some ⟨0x1000, 8, 8, [1, 2, 3, 4, 5, 6, 7, 8], rfl⟩
    | _ => none
  iExportDataDir := exportVa
  iExportDirSize := 4
  iEntryPoint := 0

/-- The constants of a file. -/
def eightBytesConst : PeSection := ⟨0x1000, 8, 8, [1, 2, 3, 4, 5, 6, 7, 8], rfl⟩

/-- With the directory in front, the directory stays and the constants are cut off. -/
theorem eightBytes_lost : ExportsInside (eightBytes 0x1000) eightBytesConst ∧
    ¬ ∃ f', (eightBytes 0x1000).Normalise = .ok f' ∧
      ∀ i, (eightBytes 0x1000).Outside eightBytesConst i → Kept eightBytesConst f' i := by
  have hinside : ExportsInside (eightBytes 0x1000) eightBytesConst := ⟨rfl, by decide, rfl, by decide, by decide⟩
  refine ⟨hinside, ?_⟩
  rintro ⟨f', hnorm, hkept⟩
  obtain ⟨f₁, hsplit, hdrop⟩ := bind_eq_ok.mp hnorm
  obtain ⟨f₂, cut, edata, hsplit₂, hs⟩ := splitExports_ok hinside (by decide) (.inr (by decide))
  rw [hsplit] at hsplit₂
  obtain rfl := Except.ok.inj hsplit₂
  have hout : (eightBytes 0x1000).Outside eightBytesConst 7 := ⟨by decide, .inr (by decide)⟩
  have hcov := ((f'.find_const_iff _).mp (hkept 7 hout).found).1
  have hlt := (hs.covers_const hinside hout.1).mp ((dropImports_covers hdrop _ _).mp hcov).1
  exact absurd hlt (by decide)

theorem eightBytes_keeps_iff : (∃ f', (eightBytes 0x1004).Normalise = .ok f' ∧
      ∀ i, (eightBytes 0x1004).Outside eightBytesConst i → Kept eightBytesConst f' i) ↔
    (eightBytes 0x1004).iExportDirSize.toNat < 2147483648 ∧
    ((eightBytes 0x1004).iExportDirSize = 0 ∨
      ((eightBytes 0x1004).exportOffset eightBytesConst + (eightBytes 0x1004).iExportDirSize.toNat =
        eightBytesConst.VirtualSize.toNat ∧ eightBytesConst.VirtualSize.toNat ≤ eightBytesConst.SizeOfRawData.toNat)) ∧
    (eightBytes 0x1004).ImportsCounted ∧ ∀ i, (eightBytes 0x1004).Outside eightBytesConst i →
      ¬ (eightBytes 0x1004).CoveredLater (eightBytesConst.VirtualAddress + UInt32.ofNat i) :=
  normalise_keeps_iff ⟨rfl, by decide, rfl, by decide, by decide⟩

end GnuPoc.Petran
