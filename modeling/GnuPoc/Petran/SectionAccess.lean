import GnuPoc.Petran.RelocBlocks

/-!
# GnuPoc.Petran.SectionAccess — what `Translate` takes from the sections (`pe_tran.cpp`, `pe_reloc.cpp`)

`Translate` copies the sections of a normalised file into the image and patches the words at the relocations.  The trace
has the section headers it looks into and the section bytes it takes, in their order.  Imports and exports are not traced;
of the imports it matters whether `CopyImportAddrTable` lets `CopyCode` go on.
-/

namespace GnuPoc.Petran

open GnuPoc.Lib

/-- `iSectionHeader[i]`, and bytes of `iSectionData[i]`; the index -1 is no section. -/
inductive Access
  | header (i : Option Section)
  | bytes (i : Section) (offset n : ℕ)
  deriving DecidableEq

/-- The section is there, and has the bytes. -/
def PEFile.Has (f : PEFile) : Access → Prop
  | .header i => ∃ s, i.bind f.sections = some s
  | .bytes i offset n => ∃ s, f.sections i = some s ∧ offset + n ≤ s.SizeOfRawData.toNat

/-- `ALIGN4` on a `TUint32`. -/
def align4 (a : UInt32) : UInt32 := (a + 3) &&& 0xfffffffc

/-- A `TInt` as the length that `memcpy` takes. -/
def memcpySize (size : UInt32) : ℕ := if size < 0x80000000 then size.toNat else size.toNat + 18446744069414584320

/-- `if (iSectionHeader[i])`: the header is looked into. -/
def PEFile.ifPresent (f : PEFile) (i : Section) : List Access := ((f.sections i).map fun _ => Access.header (some i)).toList

def PEFile.DoCodeHeader (f : PEFile) (gAlignConstSection : Bool) : List Access :=
  .header (some .KTextSection) ::
    ((if gAlignConstSection then [.header (some .KConstSection)] else []) ++ f.ifPresent .KConstSection ++
      f.ifPresent .KCrtSection)

/-- What comes out for `iDataSize`. -/
def iDataSize (s : PeSection) : UInt32 :=
  if s.SizeOfRawData = 0 then 0
  else if 0 < tint (s.VirtualSize - s.SizeOfRawData).toNat then align4 s.SizeOfRawData
  else align4 s.VirtualSize

def PEFile.DoDataHeader (f : PEFile) : List Access := f.ifPresent .KDataSection ++ f.ifPresent .KBssSection

/-- The `relocs` and `relocsection` of `Translate`, filled; the arrays have as many elements as have been counted. -/
def PEFile.relocs (f : PEFile) (fuel : ℕ) : Outcome (List Site) :=
  match f.sections .KRelocSection with
  | none => .ok []
  | some s => do
    let counted ← f.NumberOfRelocs s fuel
    if counted.sites.length = 0 then .ok []
    else do
      let written ← f.GetRelocs s fuel
      if written.sites.length = counted.sites.length then .ok written.sites else .error .undefined

/-- One turn of the loop of `FixRelocs`. -/
def PEFile.fixReloc (f : PEFile) (site : Site) : List Access :=
  if isRelocated site.section_ then
    .header (some site.section_) :: ((f.sections site.section_).map fun s =>
      Access.bytes site.section_ (site.reloc - s.VirtualAddress).toNat 4).toList
  else []

def PEFile.FixRelocs (f : PEFile) (relocation : List Site) : List Access := relocation.flatMap f.fixReloc

/-- `if (iSectionData[i])`: the section is copied, in a size that comes from its header. -/
def PEFile.copyIfPresent (f : PEFile) (i : Section) (size : PeSection → UInt32) : List Access :=
  ((f.sections i).map fun s => Access.bytes i 0 (memcpySize (size s))).toList

/-- `CopyCode` up to the import address table, and behind it. -/
def PEFile.copyText (f : PEFile) : List Access :=
  .header (some .KTextSection) :: f.copyIfPresent .KTextSection fun s => s.VirtualSize

def PEFile.copyConstants (f : PEFile) : List Access :=
  f.copyIfPresent .KConstSection (fun s => align4 s.VirtualSize) ++
    f.copyIfPresent .KCrtSection fun s => align4 s.VirtualSize

/-- `if (iHeader->iDataSize)`. -/
def PEFile.CopyData (f : PEFile) : List Access :=
  ((f.sections .KDataSection).filter fun s => iDataSize s ≠ 0).toList.map fun s =>
    .bytes .KDataSection 0 (memcpySize (iDataSize s))

/-- The trace of `Translate`; it ends where the walk over the relocations has no outcome, and where symbols are imported
by name: `importsByOrdinal` says that there are no imports, or that `CopyImportAddrTable` returns `KErrNone`. -/
def PEFile.Translate (f : PEFile) (gAlignConstSection importsByOrdinal : Bool) (fuel : ℕ) : List Access :=
  f.DoCodeHeader gAlignConstSection ++ f.DoDataHeader ++
    match f.relocs fuel with
    | .error _ => []
    | .ok relocs => f.FixRelocs relocs ++ f.copyText ++
        if importsByOrdinal then f.copyConstants ++ f.CopyData ++ [.header (f.FindSectionByVa f.iEntryPoint)] else []

/-- All that `Translate` takes is there. -/
def TakesWhatIsThere (f : PEFile) (gAlignConstSection importsByOrdinal : Bool) : Prop :=
  ∀ fuel, ∀ a ∈ f.Translate gAlignConstSection importsByOrdinal fuel, f.Has a

/-! ### The condition -/

/-- That many bytes have been loaded, and the number is no negative `TInt`. -/
def PeSection.Loaded (s : PeSection) (n : UInt32) : Prop := n < 0x80000000 ∧ n ≤ s.SizeOfRawData

/-- `VirtualSize` is above `SizeOfRawData`, as far as a `TInt` can tell. -/
def PeSection.hasBss (s : PeSection) : Prop :=
  s.VirtualSize ≠ s.SizeOfRawData ∧ s.VirtualSize - s.SizeOfRawData < 0x80000000

/-- The header fields fit what `CopyCode` and `CopyData` take. -/
structure PEFile.CopiesLoaded (f : PEFile) : Prop where
  const_ : ∀ s, f.sections .KConstSection = some s → s.Loaded (align4 s.VirtualSize)
  crt : ∀ s, f.sections .KCrtSection = some s → s.Loaded (align4 s.VirtualSize)
  bss : ∀ s, f.sections .KDataSection = some s → s.SizeOfRawData ≠ 0 → s.hasBss → s.Loaded (align4 s.SizeOfRawData)
  data : ∀ s, f.sections .KDataSection = some s → s.SizeOfRawData ≠ 0 → ¬ s.hasBss → s.Loaded (align4 s.VirtualSize)
  entry : ∃ i, f.covers f.iEntryPoint i = true

/-- A relocated word ends inside of its section. -/
def PEFile.WordLoaded (f : PEFile) (site : Site) : Prop :=
  isRelocated site.section_ → ∃ s, f.sections site.section_ = some s ∧
    (site.reloc - s.VirtualAddress).toNat + 4 ≤ s.SizeOfRawData.toNat

/-- What is needed behind the relocations. -/
structure PEFile.FitsCopies (f : PEFile) (importsByOrdinal : Bool) (relocs : List Site) : Prop where
  words : ∀ site ∈ relocs, f.WordLoaded site
  text : ∀ s, f.sections .KTextSection = some s → s.Loaded s.VirtualSize
  rest : importsByOrdinal → f.CopiesLoaded

structure PEFile.FitsTranslate (f : PEFile) (gAlignConstSection importsByOrdinal : Bool) : Prop where
  text : ∃ s, f.sections .KTextSection = some s
  aligned : gAlignConstSection → ∃ s, f.sections .KConstSection = some s
  copies : ∀ fuel relocs, f.relocs fuel = .ok relocs → f.FitsCopies importsByOrdinal relocs

/-! ### Sizes -/

theorem memcpySize_le {n size : UInt32} : memcpySize n ≤ size.toNat ↔ n < 0x80000000 ∧ n ≤ size := by
  have hsize := size.toNat_lt
  have hbelow : n < 0x80000000 ↔ n.toNat < 2147483648 := UInt32.lt_iff_toNat_lt
  rw [memcpySize, UInt32.le_iff_toNat_le]
  by_cases hn : n < 0x80000000
  · rw [if_pos hn]
    exact ⟨fun h => ⟨hn, h⟩, fun h => h.2⟩
  · rw [if_neg hn]
    constructor
    · intro h
      omega
    · intro h
      exact absurd h.1 hn

theorem tint_pos_iff (a b : UInt32) : 0 < tint (a - b).toNat ↔ a ≠ b ∧ a - b < 0x80000000 := by
  have hrange := (a - b).toNat_lt
  have hbelow : a - b < 0x80000000 ↔ (a - b).toNat < 2147483648 := UInt32.lt_iff_toNat_lt
  have hzero : a = b ↔ (a - b).toNat = 0 := by
    rw [← UInt32.sub_left_inj b, UInt32.sub_self, ← UInt32.toNat_inj]
    rfl
  rw [hbelow, ne_eq, hzero]
  unfold tint
  rw [Nat.mod_eq_of_lt (by omega)]
  split
  · omega
  · omega

/-! ### One function at a time -/

variable {f : PEFile}

theorem ifPresent_has (i : Section) : ∀ a ∈ f.ifPresent i, f.Has a := by
  intro a ha
  rw [PEFile.ifPresent] at ha
  cases hs : f.sections i with
  | none => rw [hs] at ha; exact absurd ha List.not_mem_nil
  | some s =>
    rw [hs] at ha
    obtain rfl := List.mem_singleton.mp ha
    exact ⟨s, hs⟩

theorem doCodeHeader_has {gAlignConstSection : Bool} : (∀ a ∈ f.DoCodeHeader gAlignConstSection, f.Has a) ↔
    (∃ s, f.sections .KTextSection = some s) ∧ (gAlignConstSection → ∃ s, f.sections .KConstSection = some s) := by
  rw [PEFile.DoCodeHeader, List.forall_mem_cons, List.forall_mem_append, List.forall_mem_append]
  refine and_congr Iff.rfl ⟨fun h halign => ?_, fun h => ⟨⟨?_, ifPresent_has _⟩, ifPresent_has _⟩⟩
  · rw [if_pos halign] at h
    exact h.1.1 _ List.mem_cons_self
  · cases hcases : gAlignConstSection with
    | false => exact fun a ha => absurd ha List.not_mem_nil
    | true =>
      intro a ha
      obtain rfl := List.mem_singleton.mp ha
      exact h hcases

theorem copyIfPresent_has {i : Section} {size : PeSection → UInt32} :
    (∀ a ∈ f.copyIfPresent i size, f.Has a) ↔ ∀ s, f.sections i = some s → s.Loaded (size s) := by
  rw [PEFile.copyIfPresent]
  cases hs : f.sections i with
  | none =>
    refine ⟨fun _ s h => ?_, fun _ a ha => absurd ha List.not_mem_nil⟩
    cases h
  | some s =>
    constructor
    · intro h _ heq
      obtain rfl := Option.some.inj heq
      obtain ⟨_, hs', hle⟩ := h _ List.mem_cons_self
      obtain rfl := Option.some.inj (hs.symm.trans hs')
      rw [Nat.zero_add] at hle
      exact memcpySize_le.mp hle
    · intro h a ha
      obtain rfl := List.mem_singleton.mp ha
      refine ⟨s, hs, ?_⟩
      rw [Nat.zero_add]
      exact memcpySize_le.mpr (h s rfl)

theorem fixReloc_has {site : Site} : (∀ a ∈ f.fixReloc site, f.Has a) ↔ f.WordLoaded site := by
  rw [PEFile.fixReloc, PEFile.WordLoaded]
  by_cases hsite : isRelocated site.section_ = true
  · rw [if_pos hsite, List.forall_mem_cons]
    constructor
    · rintro ⟨⟨s, hs⟩, hword⟩ _
      have hs' : f.sections site.section_ = some s := hs
      rw [hs'] at hword
      obtain ⟨_, hsame, hle⟩ := hword _ List.mem_cons_self
      obtain rfl := Option.some.inj (hs'.symm.trans hsame)
      exact ⟨s, hs', hle⟩
    · intro h
      obtain ⟨s, hs, hle⟩ := h hsite
      refine ⟨⟨s, hs⟩, fun a ha => ?_⟩
      rw [hs] at ha
      obtain rfl := List.mem_singleton.mp ha
      exact ⟨s, hs, hle⟩
  · rw [if_neg hsite]
    exact ⟨fun _ h => absurd h hsite, fun _ a ha => absurd ha List.not_mem_nil⟩

theorem loaded_zero (s : PeSection) : s.Loaded 0 := ⟨by decide, UInt32.zero_le⟩

theorem iDataSize_loaded {s : PeSection} : s.Loaded (iDataSize s) ↔
    (s.SizeOfRawData ≠ 0 → s.hasBss → s.Loaded (align4 s.SizeOfRawData)) ∧
      (s.SizeOfRawData ≠ 0 → ¬ s.hasBss → s.Loaded (align4 s.VirtualSize)) := by
  have hbss : 0 < tint (s.VirtualSize - s.SizeOfRawData).toNat ↔ s.hasBss := tint_pos_iff ..
  rw [iDataSize]
  by_cases hraw : s.SizeOfRawData = 0
  · rw [if_pos hraw]
    exact ⟨fun _ => ⟨fun h => absurd hraw h, fun h => absurd hraw h⟩, fun _ => loaded_zero s⟩
  · rw [if_neg hraw]
    by_cases hpos : s.hasBss
    · rw [if_pos (hbss.mpr hpos)]
      exact ⟨fun h => ⟨fun _ _ => h, fun _ hno => absurd hpos hno⟩, fun h => h.1 hraw hpos⟩
    · rw [if_neg fun h => hpos (hbss.mp h)]
      exact ⟨fun h => ⟨fun _ hbss => absurd hbss hpos, fun _ _ => h⟩, fun h => h.2 hraw hpos⟩

theorem copyData_has : (∀ a ∈ f.CopyData, f.Has a) ↔
    ∀ s, f.sections .KDataSection = some s → s.Loaded (iDataSize s) := by
  have hsame : (∀ a ∈ f.CopyData, f.Has a) ↔ ∀ a ∈ f.copyIfPresent .KDataSection iDataSize, f.Has a := by
    rw [PEFile.CopyData, PEFile.copyIfPresent]
    cases hs : f.sections .KDataSection with
    | none => exact Iff.rfl
    | some s =>
      rw [Option.filter_some]
      by_cases hzero : iDataSize s = 0
      · have hnone : ∀ a ∈ [Access.bytes .KDataSection 0 (memcpySize (iDataSize s))], f.Has a := by
          intro a ha
          obtain rfl := List.mem_singleton.mp ha
          rw [hzero]
          exact ⟨s, hs, Nat.zero_le _⟩
        rw [if_neg (by simp [hzero])]
        exact ⟨fun _ => hnone, fun _ a ha => absurd ha List.not_mem_nil⟩
      · rw [if_pos (by simp [hzero])]
        rfl
  rw [hsame, copyIfPresent_has]

theorem mem_allSections (i : Section) : i ∈ allSections := by
  cases i <;> decide

theorem sections_of_covers {va : UInt32} {i : Section} (h : f.covers va i = true) : ∃ s, f.sections i = some s := by
  rw [PEFile.covers] at h
  cases hs : f.sections i with
  | none =>
    rw [hs] at h
    cases h
  | some s => exact ⟨s, rfl⟩

/-- The header of the section that is found can be looked into just when some section has the address. -/
theorem found_has (va : UInt32) : f.Has (.header (f.FindSectionByVa va)) ↔ ∃ i, f.covers va i = true := by
  rw [PEFile.FindSectionByVa, foldl_last, Option.or_none]
  constructor
  · rintro ⟨s, hs⟩
    cases hfind : allSections.reverse.find? (f.covers va) with
    | none =>
      rw [hfind] at hs
      cases hs
    | some i => exact ⟨i, List.find?_some hfind⟩
  · rintro ⟨i, hi⟩
    obtain ⟨j, hj⟩ : ∃ j, allSections.reverse.find? (f.covers va) = some j := by
      rw [← Option.isSome_iff_exists, List.find?_isSome]
      exact ⟨i, List.mem_reverse.mpr (mem_allSections i), hi⟩
    rw [hj]
    exact sections_of_covers (List.find?_some hj)

theorem copiesLoaded_iff : f.CopiesLoaded ↔
    (∀ a ∈ f.copyConstants ++ f.CopyData ++ [.header (f.FindSectionByVa f.iEntryPoint)], f.Has a) := by
  rw [List.forall_mem_append, List.forall_mem_append, PEFile.copyConstants, List.forall_mem_append, copyIfPresent_has,
    copyIfPresent_has, copyData_has, List.forall_mem_singleton, found_has]
  constructor
  · intro h
    exact ⟨⟨⟨h.const_, h.crt⟩, fun s hs => iDataSize_loaded.mpr ⟨h.bss s hs, h.data s hs⟩⟩, h.entry⟩
  · rintro ⟨⟨⟨hconst, hcrt⟩, hdata⟩, hcovers⟩
    exact ⟨hconst, hcrt, fun s hs => (iDataSize_loaded.mp (hdata s hs)).1,
      fun s hs => (iDataSize_loaded.mp (hdata s hs)).2, hcovers⟩

theorem fitsCopies_iff {importsByOrdinal : Bool} {relocs : List Site} (htext : ∃ s, f.sections .KTextSection = some s) :
    f.FitsCopies importsByOrdinal relocs ↔ ∀ a ∈ f.FixRelocs relocs ++ f.copyText ++
      (if importsByOrdinal then f.copyConstants ++ f.CopyData ++ [.header (f.FindSectionByVa f.iEntryPoint)] else []),
      f.Has a := by
  have hwords : (∀ a ∈ f.FixRelocs relocs, f.Has a) ↔ ∀ site ∈ relocs, f.WordLoaded site := by
    rw [PEFile.FixRelocs, List.forall_mem_flatMap]
    exact forall₂_congr fun _ _ => fixReloc_has
  have hcopied : (∀ a ∈ f.copyText, f.Has a) ↔ ∀ s, f.sections .KTextSection = some s → s.Loaded s.VirtualSize := by
    rw [PEFile.copyText, List.forall_mem_cons, copyIfPresent_has]
    exact and_iff_right htext
  rw [List.forall_mem_append, List.forall_mem_append, hwords, hcopied]
  cases importsByOrdinal with
  | false => exact ⟨fun h => ⟨⟨h.words, h.text⟩, fun a ha => absurd ha List.not_mem_nil⟩,
      fun h => ⟨h.1.1, h.1.2, fun hfalse => absurd hfalse Bool.false_ne_true⟩⟩
  | true =>
    rw [if_pos rfl, ← copiesLoaded_iff]
    exact ⟨fun h => ⟨⟨h.words, h.text⟩, h.rest rfl⟩, fun h => ⟨h.1.1, h.1.2, fun _ => h.2⟩⟩

/-- What `Translate` takes is there exactly when the header fields and the relocations fit. -/
theorem takesWhatIsThere_iff (f : PEFile) (gAlignConstSection importsByOrdinal : Bool) :
    TakesWhatIsThere f gAlignConstSection importsByOrdinal ↔ f.FitsTranslate gAlignConstSection importsByOrdinal := by
  have hdata : ∀ a ∈ f.DoDataHeader, f.Has a := List.forall_mem_append.mpr ⟨ifPresent_has _, ifPresent_has _⟩
  constructor
  · intro h
    have hheader : ∀ a ∈ f.DoCodeHeader gAlignConstSection, f.Has a := fun a ha =>
      h 0 a (List.mem_append_left _ (List.mem_append_left _ ha))
    obtain ⟨htext, halign⟩ := doCodeHeader_has.mp hheader
    refine ⟨htext, halign, fun fuel relocs hrelocs => (fitsCopies_iff htext).mpr fun a ha => h fuel a ?_⟩
    rw [PEFile.Translate, hrelocs]
    exact List.mem_append_right _ ha
  · intro h fuel a ha
    rw [PEFile.Translate, List.append_assoc] at ha
    rcases List.mem_append.mp ha with ha | ha
    · exact doCodeHeader_has.mpr ⟨h.text, h.aligned⟩ a ha
    rcases List.mem_append.mp ha with ha | ha
    · exact hdata a ha
    cases hrelocs : f.relocs fuel with
    | error e =>
      rw [hrelocs] at ha
      exact absurd ha List.not_mem_nil
    | ok relocs =>
      rw [hrelocs] at ha
      exact (fitsCopies_iff h.text).mp (h.copies fuel relocs hrelocs) a ha

/-- A file with five bytes of constants. -/
def oddConstants : PEFile where
  sections
    | .KTextSection => some ⟨0x1000, 4, 4, [0, 0, 0, 0], rfl⟩
    | .KConstSection => some ⟨0x2000, 5, 5, [1, 2, 3, 4, 5], rfl⟩
    | _ => none
  iExportDataDir := 0
  iExportDirSize := 0
  iEntryPoint := 0x1000

/-- Eight bytes are copied out of the five. -/
theorem oddConstants_overread : ¬ TakesWhatIsThere oddConstants false true ∧
    Access.bytes .KConstSection 0 8 ∈ oddConstants.Translate false true 0 := by
  have hmem : Access.bytes .KConstSection 0 8 ∈ oddConstants.Translate false true 0 := by decide
  refine ⟨fun h => ?_, hmem⟩
  obtain ⟨s, hs, hle⟩ := h 0 _ hmem
  obtain rfl := Option.some.inj hs
  exact absurd hle (by decide)

end GnuPoc.Petran
