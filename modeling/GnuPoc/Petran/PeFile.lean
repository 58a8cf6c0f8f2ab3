import GnuPoc.Petran.Imports
import Mathlib.Logic.Function.Basic

/-!
# GnuPoc.Petran.PeFile — a PE file in memory (`pe_file.cpp`, `pe_utl.cpp`)

A section of the file is its header and the `SizeOfRawData` bytes that `ReadData` has loaded for it.  `Normalise`
splits the export directory off `.rdata`, by cutting as many bytes off its end.
-/

namespace GnuPoc.Petran

open GnuPoc.Lib

/-- A section as `ReadSectionHeaders` and `ReadData` leave it. -/
structure PeSection where
  VirtualAddress : UInt32
  VirtualSize : UInt32
  SizeOfRawData : UInt32
  data : Bytes
  length_data : data.length = SizeOfRawData.toNat

/-- `iSectionHeader` and `iSectionData`, and what `Init` takes from the optional header. -/
structure PEFile where
  sections : Section → Option PeSection
  iExportDataDir : UInt32
  iExportDirSize : UInt32
  iEntryPoint : UInt32

def allSections : List Section :=
  [.KTextSection, .KConstSection, .KExportSection, .KDataSection, .KBssSection, .KImportSection, .KCrtSection, .KRelocSection]

def VirtualAddressInSection (aVA : UInt32) (s : PeSection) : Bool :=
  s.VirtualAddress ≤ aVA ∧ aVA < s.VirtualAddress + s.VirtualSize

/-- The section is there, and the address is in it. -/
def PEFile.covers (f : PEFile) (aVa : UInt32) (i : Section) : Bool := (f.sections i).any (VirtualAddressInSection aVa)

/-- The last section that has the address. -/
def PEFile.FindSectionByVa (f : PEFile) (aVa : UInt32) : Option Section :=
  allSections.foldl (fun s i => if f.covers aVa i then some i else s) none

/-! ### `NumberOfImports` -/

def PeSection.imports (s : PeSection) : ImportData :=
  ⟨s.VirtualAddress, s.data, by rw [s.length_data]; exact s.SizeOfRawData.toNat_lt⟩

def importsLoop (s : ImportData) : ℕ → ℕ → ℕ → Outcome ℕ
  | 0, _, _ => .error .outOfFuel
  | fuel + 1, src, n => do
    let w ← peek32 s.data src
    if w ≠ 0 then do
      let vaoffset ← peek32 s.data (src + 16)
      let n ← countImports s.data s.data.length (s.offset vaoffset).toNat n
      importsLoop s fuel (src + 20) n
    else .ok n

def NumberOfImports (s : PeSection) : Outcome ℕ := importsLoop s.imports s.imports.data.length 0 0

/-! ### `Normalise` -/

/-- The copy of the export directory, `offset` bytes into `.rdata`.  `new char[]` takes no negative length. -/
def copyExports (va size : UInt32) (rdata : PeSection) : Outcome PeSection :=
  let offset := va.toNat - rdata.VirtualAddress.toNat
  if 2147483648 ≤ size.toNat then .error .undefined
  else if h : size = 0 ∨ offset + size.toNat ≤ rdata.data.length then
    .ok ⟨va, size, size, readAt rdata.data offset size.toNat, by
      rcases h with rfl | h
      · rw [readAt, List.length_take]
        exact Nat.zero_min _
      · exact length_readAt_of_le h⟩
  else .error .undefined

/-- The section without its last bytes. -/
def cutSection (size : UInt32) (s : PeSection) : Outcome PeSection :=
  if h : (s.SizeOfRawData - size).toNat ≤ s.data.length then
    .ok ⟨s.VirtualAddress, s.VirtualSize - size, s.SizeOfRawData - size, s.data.take (s.SizeOfRawData - size).toNat,
      List.length_take_of_le h⟩
  else .error .undefined

/-- "MSVC puts export data in with .rdata" -/
def PEFile.splitExports (f : PEFile) : Outcome PEFile :=
  if f.iExportDataDir ≠ 0 ∧ (f.sections .KExportSection).isNone then
    match f.sections .KConstSection with
    | none => .error .undefined
    | some rdata =>
      -- `KErrGeneral`, which `Translate` and `main` hand on
      if ¬ VirtualAddressInSection f.iExportDataDir rdata then .error (.exits 1)
      else do
        let edata ← copyExports f.iExportDataDir f.iExportDirSize rdata
        let rdata ← cutSection f.iExportDirSize rdata
        .ok { f with
          sections := Function.update (Function.update f.sections .KExportSection (some edata)) .KConstSection (some rdata) }
  else .ok f

/-- "Stupid compilers generate .idata sections even when there are no imports" -/
def PEFile.dropImports (f : PEFile) : Outcome PEFile :=
  match f.sections .KImportSection with
  | none => .ok f
  | some s => do
    let n ← NumberOfImports s
    .ok (if n = 0 then { f with sections := Function.update f.sections .KImportSection none } else f)

def PEFile.Normalise (f : PEFile) : Outcome PEFile := do
  let f ← f.splitExports
  f.dropImports

/-! ### Looking a section up -/

/-- The sections that `FindSectionByVa` looks at behind the constant section. -/
def behindConst : List Section := [.KExportSection, .KDataSection, .KBssSection, .KImportSection, .KCrtSection, .KRelocSection]

theorem foldl_last {α : Type} (p : α → Bool) (l : List α) (s : Option α) :
    l.foldl (fun s i => if p i then some i else s) s = (l.reverse.find? p).or s := by
  induction l generalizing s with
  | nil => rfl
  | cons a l ih =>
    rw [List.foldl_cons, ih, List.reverse_cons, List.find?_append]
    cases l.reverse.find? p with
    | some b => rfl
    | none =>
      cases hp : p a with
      | true => simp [hp]
      | false => simp [hp]

/-- The constant section is found where it has the address and no later section has it. -/
theorem PEFile.find_const_iff (f : PEFile) (va : UInt32) :
    f.FindSectionByVa va = some .KConstSection ↔ f.covers va .KConstSection = true ∧ ∀ i ∈ behindConst, f.covers va i = false := by
  have hrev : allSections.reverse = behindConst.reverse ++ [.KConstSection, .KTextSection] := rfl
  have hnot : Section.KConstSection ∉ behindConst.reverse := by decide
  rw [FindSectionByVa, foldl_last, Option.or_none, hrev, List.find?_append]
  cases hlater : behindConst.reverse.find? (f.covers va) with
  | some j =>
    rw [Option.some_or]
    constructor
    · intro h
      rw [Option.some.inj h] at hlater
      exact absurd (List.mem_of_find?_eq_some hlater) hnot
    · rintro ⟨-, hnone⟩
      have hj := hnone j (List.mem_reverse.mp (List.mem_of_find?_eq_some hlater))
      rw [List.find?_some hlater] at hj
      cases hj
  | none =>
    rw [Option.none_or]
    have hnone : ∀ i ∈ behindConst, f.covers va i = false := by
      intro i hi
      exact Bool.eq_false_iff.mpr (List.find?_eq_none.mp hlater i (List.mem_reverse.mpr hi))
    constructor
    · intro h
      exact ⟨List.find?_some h, hnone⟩
    · rintro ⟨hconst, -⟩
      exact List.find?_cons_of_pos hconst

theorem inSection_iff (va : UInt32) (s : PeSection) : VirtualAddressInSection va s = true ↔
    s.VirtualAddress.toNat ≤ va.toNat ∧ va.toNat < (s.VirtualAddress.toNat + s.VirtualSize.toNat) % 4294967296 := by
  rw [VirtualAddressInSection, decide_eq_true_iff, UInt32.le_iff_toNat_le, UInt32.lt_iff_toNat_lt, UInt32.toNat_add]

theorem end_lt {va : UInt32} {s : PeSection} (h : VirtualAddressInSection va s = true) :
    s.VirtualAddress.toNat + s.VirtualSize.toNat < 4294967296 := by
  have hboth := (inSection_iff va s).mp h
  have hstart := s.VirtualAddress.toNat_lt
  have hsize := s.VirtualSize.toNat_lt
  omega

theorem inSection_offset {s : PeSection} {i : ℕ} (hend : s.VirtualAddress.toNat + s.VirtualSize.toNat < 4294967296)
    (hi : s.VirtualAddress.toNat + i < 4294967296) :
    VirtualAddressInSection (s.VirtualAddress + UInt32.ofNat i) s = true ↔ i < s.VirtualSize.toNat := by
  have hva : (s.VirtualAddress + UInt32.ofNat i).toNat = s.VirtualAddress.toNat + i := by
    rw [UInt32.toNat_add, UInt32.toNat_ofNat']
    omega
  rw [inSection_iff, hva]
  omega

end GnuPoc.Petran
