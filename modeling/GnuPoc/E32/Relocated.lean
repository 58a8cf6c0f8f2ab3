import GnuPoc.E32.Elftran
import GnuPoc.E32.Layout
import GnuPoc.E32.VersionTables

/-!
# GnuPoc.E32.Relocated — what `checkRelocations` does to an image

What should become of an entry depends on its type, on whether its symbol is defined, and on where its
word stands: in the code, in the initialised data, in neither, or across an end.  `checkRelocations`
tests the first byte of the word only, against the data with the zero-initialised part, and it looks at
the first auxiliary entry of each version need only.
-/

namespace GnuPoc.E32

open GnuPoc.Lib

/-! ### What the lists hold -/

/-- The sites of a relocation list, page after page. -/
def RelocationList.held (l : RelocationList) : List RelocationCall :=
  l.sublists.entries.flatMap fun e => e.2.map fun r => ⟨e.1 + r.offset.toUInt32, r.value⟩

theorem page_add_offset (c : RelocationCall) : c.page + c.relocation.offset.toUInt32 = c.offset := by
  apply UInt32.toNat_inj.mp
  rw [UInt32.toNat_add, UInt16.toNat_toUInt32, RelocationList.toNat_page, RelocationList.toNat_relocation_offset]
  have hlt := c.offset.toNat_lt
  omega

theorem RelocationList.held_addRelocation (l : RelocationList) (c : RelocationCall) :
    (l.addRelocation c).held.Perm (l.held ++ [c]) := by
  have h := SortedMap.flatMap_alterEntries_perm
    (fun (page : UInt32) (r : Relocation) => RelocationCall.mk (page + r.offset.toUInt32) r.value)
    c.page c.relocation l.sublists.entries
  simp only [page_add_offset] at h
  exact h

/-- The imports of an import list, library after library. -/
def ImportList.held (l : ImportList) : List ImportCall :=
  l.libraries.flatMap fun lib => lib.addresses.map fun addr => ⟨lib.name, addr⟩

theorem flatMap_addAddress_perm (libname : CString) (addr : UInt32) (libs : List Library) :
    ((addAddress libname addr libs).flatMap fun lib => lib.addresses.map fun a => ImportCall.mk lib.name a).Perm
      ((libs.flatMap fun lib => lib.addresses.map fun a => ImportCall.mk lib.name a) ++ [⟨libname, addr⟩]) := by
  induction libs with
  | nil => exact List.Perm.refl _
  | cons lib libs ih =>
    rw [addAddress]
    split
    · next h =>
      have hname : lib.name = libname := strcmp_eq_zero.mp h
      simp only [List.flatMap_cons, List.map_append, List.map_singleton, List.append_assoc, hname]
      exact List.Perm.append_left _ List.perm_append_comm
    · rw [List.flatMap_cons, List.flatMap_cons, List.append_assoc]
      exact List.Perm.append_left _ ih

theorem ImportList.held_addImport (l : ImportList) (c : ImportCall) :
    (l.addImport c).held.Perm (l.held ++ [c]) := flatMap_addAddress_perm c.libname c.addr l.libraries

/-! ### Symbols -/

/-- The value of the symbol of an entry, if it is defined. -/
def definedValue (sections : RelocSections) (rel : Elf32_Rel) : Option UInt32 :=
  sections.dynsyms[rel.sym]?.bind fun sym => if sym.st_shndx ≠ 0 then some sym.st_value else none

/-- The version of the symbol of an entry, if it is undefined. -/
def undefinedVersion (sections : RelocSections) (rel : Elf32_Rel) : Option UInt16 :=
  sections.dynsyms[rel.sym]?.bind fun sym => if sym.st_shndx = 0 then sections.symver[rel.sym]? else none

/-! ### Sites -/

/-- The word of an entry lies in the code, or outside it in the initialised data, from end to end. -/
def CodeSite (header : E32ImageHeader) (rel : Elf32_Rel) : Prop :=
  header.codeBase.toNat ≤ rel.r_offset.toNat ∧
    rel.r_offset.toNat + 4 ≤ header.codeBase.toNat + header.codeSize.toUInt32.toNat

def DataSite (header : E32ImageHeader) (rel : Elf32_Rel) : Prop :=
  ¬ CodeSite header rel ∧ header.dataBase.toNat ≤ rel.r_offset.toNat ∧
    rel.r_offset.toNat + 4 ≤ header.dataBase.toNat + header.dataSize.toUInt32.toNat

instance decidableCodeSite (header : E32ImageHeader) (rel : Elf32_Rel) : Decidable (CodeSite header rel) :=
  inferInstanceAs (Decidable (_ ∧ _))

instance decidableDataSite (header : E32ImageHeader) (rel : Elf32_Rel) : Decidable (DataSite header rel) :=
  inferInstanceAs (Decidable (_ ∧ _))

/-- Where the word of a site is in the file. -/
def codePos (header : E32ImageHeader) (rel : Elf32_Rel) : ℕ :=
  header.codeOffset.toNat + (rel.r_offset.toNat - header.codeBase.toNat)

def dataPos (header : E32ImageHeader) (rel : Elf32_Rel) : ℕ :=
  header.dataOffset.toNat + (rel.r_offset.toNat - header.dataBase.toNat)

def sitePos (header : E32ImageHeader) (rel : Elf32_Rel) : Option ℕ :=
  if CodeSite header rel then some (codePos header rel)
  else if DataSite header rel then some (dataPos header rel)
  else none

/-- What is added to the word of an entry against a symbol with this value. -/
def addend (rel : Elf32_Rel) (value : UInt32) : UInt32 :=
  if rel.type = R_ARM_RELATIVE ∨ rel.type = R_ARM_NONE then 0 else value

/-- The words of two entries have no byte in common. -/
def Elf32_Rel.Apart (r r' : Elf32_Rel) : Prop :=
  r.r_offset.toNat + 4 ≤ r'.r_offset.toNat ∨ r'.r_offset.toNat + 4 ≤ r.r_offset.toNat

instance decidableApart (r r' : Elf32_Rel) : Decidable (r.Apart r') := inferInstanceAs (Decidable (_ ∨ _))

/-! ### What should happen -/

section
variable (header : E32ImageHeader) (sections : RelocSections)

/-- What an entry should add to the code relocations and to the data relocations. -/
def codeCall (rel : Elf32_Rel) : Option RelocationCall :=
  if CodeSite header rel ∧ rel.type ≠ R_ARM_NONE then
    (definedValue sections rel).map fun value => ⟨rel.r_offset - header.codeBase, value⟩
  else none

def dataCall (rel : Elf32_Rel) : Option RelocationCall :=
  if DataSite header rel ∧ rel.type ≠ R_ARM_NONE then
    (definedValue sections rel).map fun value => ⟨rel.r_offset - header.dataBase, value⟩
  else none

/-- An entry in the code against an undefined symbol. -/
def IsImport (rel : Elf32_Rel) : Prop :=
  CodeSite header rel ∧ rel.type ≠ R_ARM_NONE ∧ (undefinedVersion sections rel).isSome

instance decidableIsImport (rel : Elf32_Rel) : Decidable (IsImport header sections rel) :=
  inferInstanceAs (Decidable (_ ∧ _ ∧ _))

/-- What an entry should add to the imports: its offset under the name of its version. -/
def importCall {elf : Elf} (v : VersionTables elf sections) (rel : Elf32_Rel) : Option ImportCall :=
  if IsImport header sections rel then
    ((undefinedVersion sections rel).bind v.dllname).map fun dllname => ⟨dllname, rel.r_offset - header.codeBase⟩
  else none

/-- The bytes an entry may change: those of a defined symbol's site, or of an import. -/
def MayChange (rel : Elf32_Rel) (i : ℕ) : Prop :=
  rel.type ≠ R_ARM_NONE ∧ ((definedValue sections rel).isSome ∨ IsImport header sections rel) ∧
    ∃ pos, sitePos header rel = some pos ∧ pos ≤ i ∧ i < pos + 4

/-- **Relocated.** What should hold after all entries, of the state before and the state after. -/
structure Relocated {elf : Elf} (v : VersionTables elf sections) (rels : List Elf32_Rel) (s s' : RelocState) :
    Prop where
  word : ∀ rel ∈ rels, ∀ value, definedValue sections rel = some value → ∀ pos, sitePos header rel = some pos →
    pos + 4 ≤ s.out.length ∧ wordAt s'.out pos = wordAt s.out pos + addend rel value
  code : s'.relocationList.held.Perm (s.relocationList.held ++ rels.filterMap (codeCall header sections))
  data : s'.dataRelocationList.held.Perm (s.dataRelocationList.held ++ rels.filterMap (dataCall header sections))
  named : ∀ rel ∈ rels, IsImport header sections rel → (importCall header sections v rel).isSome
  imports : s'.importList.held.Perm (s.importList.held ++ rels.filterMap (importCall header sections v))
  frame : ∀ i, (∀ rel ∈ rels, ¬ MayChange header sections rel i) → s'.out[i]? = s.out[i]?

/-- The entries that come out right: one in the range of the code or the data, against a defined symbol,
is not of type `R_ARM_NONE` and its word lies in the code or the initialised data from end to end; one
against an undefined symbol, in these ranges, lies in the code and its version is the first of its
need. -/
def Regular (out : Bytes) {elf : Elf} (v : VersionTables elf sections) (rel : Elf32_Rel) : Prop :=
  ((definedValue sections rel).isSome →
    (InCode header rel.r_offset → CodeSite header rel ∧ rel.type ≠ R_ARM_NONE) ∧
    (¬ InCode header rel.r_offset → InData header rel.r_offset →
      DataSite header rel ∧ rel.type ≠ R_ARM_NONE ∧ dataPos header rel + 4 ≤ out.length)) ∧
  ∀ index, undefinedVersion sections rel = some index → rel.type ≠ R_ARM_NONE →
    (InCode header rel.r_offset → CodeSite header rel ∧ v.IsFirst index) ∧
    (¬ InCode header rel.r_offset → ¬ InData header rel.r_offset)

end

/-- The ranges of the code and of the data with the `bss` end below the end of the address space. -/
structure Addressable (header : E32ImageHeader) : Prop where
  code : header.codeBase.toNat + header.codeSize.toUInt32.toNat < 2 ^ 32
  data : header.dataBase.toNat + header.dataSize.toUInt32.toNat + header.bssSize.toUInt32.toNat < 2 ^ 32

theorem inCode_iff {header : E32ImageHeader} (h : Addressable header) (r_offset : UInt32) :
    InCode header r_offset ↔ header.codeBase.toNat ≤ r_offset.toNat ∧
      r_offset.toNat < header.codeBase.toNat + header.codeSize.toUInt32.toNat := by
  unfold InCode
  rw [UInt32.le_iff_toNat_le, UInt32.lt_iff_toNat_lt, UInt32.toNat_add, Nat.mod_eq_of_lt h.code]

theorem inData_iff {header : E32ImageHeader} (h : Addressable header) (r_offset : UInt32) :
    InData header r_offset ↔ header.dataBase.toNat ≤ r_offset.toNat ∧
      r_offset.toNat <
        header.dataBase.toNat + header.dataSize.toUInt32.toNat + header.bssSize.toUInt32.toNat := by
  have hdata := h.data
  unfold InData
  rw [UInt32.le_iff_toNat_le, UInt32.lt_iff_toNat_lt, UInt32.toNat_add, UInt32.toNat_add]
  omega

theorem CodeSite.inCode {header : E32ImageHeader} (h : Addressable header) {rel : Elf32_Rel}
    (hs : CodeSite header rel) : InCode header rel.r_offset := by
  obtain ⟨h1, h2⟩ := hs
  rw [inCode_iff h]
  omega

theorem DataSite.inData {header : E32ImageHeader} (h : Addressable header) {rel : Elf32_Rel}
    (hs : DataSite header rel) : InData header rel.r_offset := by
  obtain ⟨-, h1, h2⟩ := hs
  rw [inData_iff h]
  omega

/-! ### What one entry does -/

def RelocState.withOut (s : RelocState) (out : Bytes) : RelocState := { s with out := out }

section
variable (stack : Bytes) (header : E32ImageHeader) (sections : RelocSections) {elf : Elf}
variable (v : VersionTables elf sections)

/-- The file after an entry against a defined symbol whose word is at `offset`. -/
def fixed (rel : Elf32_Rel) (value offset : UInt32) (out : Bytes) : Bytes :=
  if rel.type ≠ R_ARM_RELATIVE then (fixRelocation stack offset out value).2 else out

/-- The file after an import whose word is at `offset`: unchanged if the ordinal is not found. -/
def ImportFixed (offset : UInt32) (out out' : Bytes) : Prop :=
  out' = out ∨ ∃ word, out' = writeAt out offset.toNat (writeUint32 word)

/-- What an entry can do, with the branch that does it. -/
inductive RelocStep (rel : Elf32_Rel) (s : RelocState) : RelocState → Prop
  | code (value : UInt32) (hvalue : definedValue sections rel = some value)
      (hcode : InCode header rel.r_offset) :
      RelocStep rel s ((s.withOut (fixed stack rel value
        (rel.r_offset - header.codeBase + header.codeOffset) s.out)).addRelocation
          (rel.r_offset - header.codeBase) value)
  | data (value : UInt32) (hvalue : definedValue sections rel = some value)
      (hcode : ¬ InCode header rel.r_offset) (hdata : InData header rel.r_offset) :
      RelocStep rel s ((s.withOut (fixed stack rel value
        (rel.r_offset - header.dataBase + header.dataOffset) s.out)).addDataRelocation
          (rel.r_offset - header.dataBase) value)
  | outside (value : UInt32) (hvalue : definedValue sections rel = some value)
      (hcode : ¬ InCode header rel.r_offset) (hdata : ¬ InData header rel.r_offset) : RelocStep rel s s
  | importCode (index : UInt16) (dllname : CString) (out : Bytes)
      (hindex : undefinedVersion sections rel = some index) (htype : rel.type ≠ R_ARM_NONE)
      (hcode : InCode header rel.r_offset) (hfirst : v.IsFirst index) (hname : v.dllname index = some dllname)
      (hout : ImportFixed (rel.r_offset - header.codeBase + header.codeOffset) s.out out) :
      RelocStep rel s ((s.withOut out).addImport dllname (rel.r_offset - header.codeBase))
  | importData (index : UInt16) (dllname : CString) (out : Bytes)
      (hindex : undefinedVersion sections rel = some index) (htype : rel.type ≠ R_ARM_NONE)
      (hcode : ¬ InCode header rel.r_offset) (hdata : InData header rel.r_offset) (hfirst : v.IsFirst index)
      (hname : v.dllname index = some dllname)
      (hout : ImportFixed (rel.r_offset - header.dataBase + header.dataOffset) s.out out) :
      RelocStep rel s ((s.withOut out).addImport dllname (rel.r_offset - header.dataBase))
  | importOutside (index : UInt16) (hindex : undefinedVersion sections rel = some index)
      (hcode : ¬ InCode header rel.r_offset) (hdata : ¬ InData header rel.r_offset) : RelocStep rel s s
  | importNone (index : UInt16) (hindex : undefinedVersion sections rel = some index)
      (htype : rel.type = R_ARM_NONE) : RelocStep rel s s

end

theorem fixImportRelocationByName_fixed {stack : Bytes}
    {findOrdinal : Option CString → CString → Except Stop (Option UInt32)} {offset : UInt32} {out out' : Bytes}
    {symbol : Option CString} {lib : CString}
    (h : fixImportRelocationByName stack findOrdinal offset out symbol lib = .ok out') : ImportFixed offset out out' := by
  obtain ⟨ordinal, -, h⟩ := bind_eq_ok.mp h
  cases ordinal with
  | some ordinal =>
    cases h
    exact .inr ⟨_, rfl⟩
  | none =>
    cases h
    exact .inl rfl

section
variable {stack : Bytes} {findOrdinal : Option CString → CString → Except Stop (Option UInt32)} {elf : Elf}
variable {sections : RelocSections} {header : E32ImageHeader} {v : VersionTables elf sections}
variable {rel : Elf32_Rel} {s s' : RelocState}

theorem symbol_cases (v : VersionTables elf sections) (hsym : rel.sym < sections.dynsyms.length) :
    ∃ sym index, sections.dynsyms[rel.sym]? = some sym ∧ sections.symver[rel.sym]? = some index ∧
      (sym.st_shndx ≠ 0 ∧ definedValue sections rel = some sym.st_value ∧ undefinedVersion sections rel = none ∨
        sym.st_shndx = 0 ∧ definedValue sections rel = none ∧ undefinedVersion sections rel = some index) := by
  have hver : rel.sym < sections.symver.length := by
    rw [v.versions]
    exact hsym
  have h1 := List.getElem?_eq_getElem hsym
  have h2 := List.getElem?_eq_getElem hver
  refine ⟨_, _, h1, h2, ?_⟩
  unfold definedValue undefinedVersion
  rw [h1, h2]
  by_cases hdef : sections.dynsyms[rel.sym].st_shndx = 0
  · exact .inr ⟨hdef, by simp [hdef], by simp [hdef]⟩
  · exact .inl ⟨hdef, by simp [hdef], by simp [hdef]⟩

/-- What the check does with an entry. -/
theorem checkRelocation_step (hsym : rel.sym < sections.dynsyms.length)
    (h : checkRelocation stack findOrdinal elf sections header rel s = .ok s') :
    RelocStep stack header sections v rel s s' := by
  obtain ⟨sym, index, hs, hi, ⟨hdef, hvalue, -⟩ | ⟨hdef, -, hindex⟩⟩ := symbol_cases v hsym
  · unfold checkRelocation at h
    simp only [hs, hi, hdef, ne_eq, not_false_eq_true, if_true] at h
    cases h
    unfold checkDefined
    simp only
    split
    · next hcode => exact .code _ hvalue hcode
    · next hcode =>
      split
      · next hdata => exact .data _ hvalue hcode hdata
      · next hdata => exact .outside _ hvalue hcode hdata
  · unfold checkRelocation at h
    simp only [hs, hi, hdef, ne_eq, not_true_eq_false, if_false, v.verneedLink] at h
    obtain ⟨⟨dsoname, dllname⟩, hnames, h⟩ := bind_eq_ok.mp h
    unfold checkImport at h
    simp only at h
    split at h
    · next htype =>
      by_cases hfirst : v.IsFirst index
      · obtain ⟨dso, dll, hboth, hname⟩ := v.getLibraryNames_of_isFirst hfirst
        rw [hboth] at hnames
        cases hnames
        simp only at h
        split at h
        · next hcode =>
          obtain ⟨out, hout, h⟩ := bind_eq_ok.mp h
          cases h
          exact .importCode _ _ _ hindex htype hcode hfirst hname (fixImportRelocationByName_fixed hout)
        · next hcode =>
          split at h
          · next hdata =>
            obtain ⟨out, hout, h⟩ := bind_eq_ok.mp h
            cases h
            exact .importData _ _ _ hindex htype hcode hdata hfirst hname (fixImportRelocationByName_fixed hout)
          · next hdata =>
            cases h
            exact .importOutside _ hindex hcode hdata
      · rw [v.getLibraryNames_of_not_isFirst hfirst] at hnames
        cases hnames
        simp only at h
        split at h
        · cases h
        · next hcode =>
          split at h
          · cases h
          · next hdata =>
            cases h
            exact .importOutside _ hindex hcode hdata
    · next htype =>
      cases h
      exact .importNone _ hindex (not_not.mp htype)

end

/-! ### What the lists gain -/

section
variable (header : E32ImageHeader) (sections : RelocSections) {elf : Elf} (v : VersionTables elf sections)

/-- What an entry does add to the three lists. -/
def codeAdd (rel : Elf32_Rel) : Option RelocationCall :=
  if InCode header rel.r_offset then
    (definedValue sections rel).map fun value => ⟨rel.r_offset - header.codeBase, value⟩
  else none

def dataAdd (rel : Elf32_Rel) : Option RelocationCall :=
  if ¬ InCode header rel.r_offset ∧ InData header rel.r_offset then
    (definedValue sections rel).map fun value => ⟨rel.r_offset - header.dataBase, value⟩
  else none

def importAdd (rel : Elf32_Rel) : Option ImportCall :=
  if rel.type = R_ARM_NONE then none
  else if InCode header rel.r_offset then
    ((undefinedVersion sections rel).bind v.dllname).map fun dllname => ⟨dllname, rel.r_offset - header.codeBase⟩
  else if InData header rel.r_offset then
    ((undefinedVersion sections rel).bind v.dllname).map fun dllname => ⟨dllname, rel.r_offset - header.dataBase⟩
  else none

/-- The lists after entries in a row; every import has been found. -/
structure Adds (rels : List Elf32_Rel) (s s' : RelocState) : Prop where
  code : s'.relocationList.held.Perm (s.relocationList.held ++ rels.filterMap (codeAdd header sections))
  data : s'.dataRelocationList.held.Perm (s.dataRelocationList.held ++ rels.filterMap (dataAdd header sections))
  imports : s'.importList.held.Perm (s.importList.held ++ rels.filterMap (importAdd header sections v))
  found : ∀ rel ∈ rels, ∀ index, undefinedVersion sections rel = some index → rel.type ≠ R_ARM_NONE →
    InCode header rel.r_offset ∨ InData header rel.r_offset → v.IsFirst index

end

section
variable {stack : Bytes} {findOrdinal : Option CString → CString → Except Stop (Option UInt32)} {elf : Elf}
variable {sections : RelocSections} {header : E32ImageHeader} {v : VersionTables elf sections}
variable {rel : Elf32_Rel} {rels : List Elf32_Rel} {s s' : RelocState}

theorem definedValue_eq_none {index : UInt16} (h : undefinedVersion sections rel = some index) :
    definedValue sections rel = none := by
  unfold undefinedVersion at h
  unfold definedValue
  cases hsym : sections.dynsyms[rel.sym]? with
  | none => rfl
  | some sym =>
    rw [hsym] at h
    simp only [Option.bind_some] at h ⊢
    split at h
    · next h0 => rw [if_neg (not_not.mpr h0)]
    · cases h

theorem undefinedVersion_eq_none {value : UInt32} (h : definedValue sections rel = some value) :
    undefinedVersion sections rel = none := by
  cases hu : undefinedVersion sections rel with
  | none => rfl
  | some index =>
    rw [definedValue_eq_none hu] at h
    cases h

theorem RelocStep.adds (h : RelocStep stack header sections v rel s s') : Adds header sections v [rel] s s' := by
  cases h with
  | code value hvalue hcode =>
    have hnone := undefinedVersion_eq_none hvalue
    refine ⟨?_, ?_, ?_, ?_⟩
    · rw [List.filterMap_cons_some (b := ⟨rel.r_offset - header.codeBase, value⟩) (by simp [codeAdd, hcode, hvalue])]
      exact RelocationList.held_addRelocation s.relocationList _
    · simp [dataAdd, hcode, RelocState.addRelocation, RelocState.withOut]
    · simp [importAdd, hcode, hnone, RelocState.addRelocation, RelocState.withOut]
    · simp [hnone]
  | data value hvalue hcode hdata =>
    have hnone := undefinedVersion_eq_none hvalue
    refine ⟨?_, ?_, ?_, ?_⟩
    · simp [codeAdd, hcode, RelocState.addDataRelocation, RelocState.withOut]
    · rw [List.filterMap_cons_some (b := ⟨rel.r_offset - header.dataBase, value⟩)
        (by simp [dataAdd, hcode, hdata, hvalue])]
      exact RelocationList.held_addRelocation s.dataRelocationList _
    · simp [importAdd, hcode, hdata, hnone, RelocState.addDataRelocation, RelocState.withOut]
    · simp [hnone]
  | outside value hvalue hcode hdata =>
    have hnone := undefinedVersion_eq_none hvalue
    refine ⟨?_, ?_, ?_, ?_⟩
    · simp [codeAdd, hcode]
    · simp [dataAdd, hdata]
    · simp [importAdd, hcode, hdata]
    · simp [hnone]
  | importCode index dllname out hindex htype hcode hfirst hname hout =>
    have hnone := definedValue_eq_none hindex
    refine ⟨?_, ?_, ?_, ?_⟩
    · simp [codeAdd, hnone, RelocState.addImport, RelocState.withOut]
    · simp [dataAdd, hnone, RelocState.addImport, RelocState.withOut]
    · rw [List.filterMap_cons_some (b := ⟨dllname, rel.r_offset - header.codeBase⟩)
        (by simp [importAdd, htype, hcode, hindex, hname])]
      exact ImportList.held_addImport s.importList _
    · simp [hindex, hfirst]
  | importData index dllname out hindex htype hcode hdata hfirst hname hout =>
    have hnone := definedValue_eq_none hindex
    refine ⟨?_, ?_, ?_, ?_⟩
    · simp [codeAdd, hnone, RelocState.addImport, RelocState.withOut]
    · simp [dataAdd, hnone, RelocState.addImport, RelocState.withOut]
    · rw [List.filterMap_cons_some (b := ⟨dllname, rel.r_offset - header.dataBase⟩)
        (by simp [importAdd, htype, hcode, hdata, hindex, hname])]
      exact ImportList.held_addImport s.importList _
    · simp [hindex, hfirst]
  | importOutside index hindex hcode hdata =>
    refine ⟨?_, ?_, ?_, ?_⟩
    · simp [codeAdd, hcode]
    · simp [dataAdd, hdata]
    · simp [importAdd, hcode, hdata]
    · simp [hcode, hdata]
  | importNone index hindex htype =>
    have hnone := definedValue_eq_none hindex
    refine ⟨?_, ?_, ?_, ?_⟩
    · simp [codeAdd, hnone]
    · simp [dataAdd, hnone]
    · simp [importAdd, htype]
    · simp [htype]

theorem perm_append_filterMap {α β : Type} (f : α → Option β) {a : α} {l : List α} {x y z : List β}
    (hy : y.Perm (x ++ [a].filterMap f)) (hz : z.Perm (y ++ l.filterMap f)) :
    z.Perm (x ++ (a :: l).filterMap f) := by
  have h := hz.trans (hy.append_right _)
  rwa [List.append_assoc, ← List.filterMap_append] at h

theorem checkRelocations_adds (v : VersionTables elf sections) (hsyms : ∀ rel ∈ rels, rel.sym < sections.dynsyms.length)
    (h : checkRelocations stack findOrdinal elf sections header rels s = .ok s') :
    Adds header sections v rels s s' := by
  induction rels generalizing s with
  | nil =>
    cases h
    refine ⟨?_, ?_, ?_, nofun⟩ <;> exact (List.append_nil _) ▸ List.Perm.refl _
  | cons rel rels ih =>
    unfold checkRelocations at h
    rw [List.foldlM_cons] at h
    obtain ⟨s₁, h1, h⟩ := bind_eq_ok.mp h
    have hstep := (checkRelocation_step (v := v) (hsyms rel List.mem_cons_self) h1).adds
    have hrest := ih (fun rel' hrel' => hsyms rel' (List.mem_cons_of_mem _ hrel')) h
    refine ⟨perm_append_filterMap _ hstep.code hrest.code, perm_append_filterMap _ hstep.data hrest.data,
      perm_append_filterMap _ hstep.imports hrest.imports, fun rel' hrel' => ?_⟩
    rcases List.mem_cons.mp hrel' with rfl | hrel'
    · exact hstep.found _ List.mem_cons_self
    · exact hrest.found rel' hrel'

/-- Where one of two partial maps is defined wherever the other is, and both keep as many, they agree. -/
theorem isSome_of_length_filterMap {α β : Type} {f g : α → Option β} {l : List α}
    (hfg : ∀ a ∈ l, (f a).isSome → (g a).isSome) (hlen : (l.filterMap g).length = (l.filterMap f).length) :
    ∀ a ∈ l, (g a).isSome → (f a).isSome := by
  rw [List.length_filterMap_eq_countP, List.length_filterMap_eq_countP] at hlen
  induction l with
  | nil => exact nofun
  | cons a l ih =>
    have hl : ∀ a ∈ l, (f a).isSome → (g a).isSome := fun a ha => hfg a (List.mem_cons_of_mem _ ha)
    have hmono : l.countP (fun a => (f a).isSome) ≤ l.countP fun a => (g a).isSome := List.countP_mono_left hl
    rw [List.countP_cons, List.countP_cons] at hlen
    intro b hb hg
    rcases List.mem_cons.mp hb with rfl | hb
    · by_contra hf
      rw [if_pos hg, if_neg hf] at hlen
      omega
    · refine ih hl ?_ b hb hg
      have ha := hfg a List.mem_cons_self
      split at hlen <;> split at hlen <;> first | omega | simp_all

theorem filterMap_length_eq {α β : Type} {f g : α → Option β} {l : List α} {x y : List β}
    (hf : y.Perm (x ++ l.filterMap f)) (hg : y.Perm (x ++ l.filterMap g)) :
    (l.filterMap g).length = (l.filterMap f).length := by
  have h := hg.length_eq.symm.trans hf.length_eq
  rw [List.length_append, List.length_append] at h
  omega

theorem isSome_dllname {index : UInt16} (h : v.IsFirst index) : (v.dllname index).isSome := by
  obtain ⟨-, dllname, -, hname⟩ := v.getLibraryNames_of_isFirst h
  rw [hname]
  rfl

/-- Only regular entries are relocated as they should be. -/
theorem regular_of_relocated (haddr : Addressable header) (hadds : Adds header sections v rels s s')
    (h : Relocated header sections v rels s s') : ∀ rel ∈ rels, Regular header sections s.out v rel := by
  have hcode : ∀ rel ∈ rels, (codeAdd header sections rel).isSome → (codeCall header sections rel).isSome := by
    refine isSome_of_length_filterMap (fun rel _ hcall => ?_) (filterMap_length_eq h.code hadds.code)
    unfold codeCall at hcall
    split at hcall
    · next hsite =>
      rw [codeAdd, if_pos (hsite.1.inCode haddr)]
      simpa using hcall
    · cases hcall
  have hsite : ∀ rel ∈ rels, (definedValue sections rel).isSome → InCode header rel.r_offset →
      CodeSite header rel ∧ rel.type ≠ R_ARM_NONE := by
    intro rel hrel hdef hin
    have hcall := hcode rel hrel (by rw [codeAdd, if_pos hin]; simpa using hdef)
    unfold codeCall at hcall
    split at hcall
    · assumption
    · cases hcall
  have hdata : ∀ rel ∈ rels, (dataAdd header sections rel).isSome → (dataCall header sections rel).isSome := by
    refine isSome_of_length_filterMap (fun rel hrel hcall => ?_) (filterMap_length_eq h.data hadds.data)
    unfold dataCall at hcall
    split at hcall
    · next hd =>
      have hdef : (definedValue sections rel).isSome := by simpa using hcall
      have hnot : ¬ InCode header rel.r_offset := fun hin => hd.1.1 (hsite rel hrel hdef hin).1
      rw [dataAdd, if_pos ⟨hnot, hd.1.inData haddr⟩]
      simpa using hdef
    · cases hcall
  have himport : ∀ rel ∈ rels, (importAdd header sections v rel).isSome →
      (importCall header sections v rel).isSome := by
    refine isSome_of_length_filterMap (fun rel _ hcall => ?_) (filterMap_length_eq h.imports hadds.imports)
    unfold importCall at hcall
    split at hcall
    · next himp =>
      rw [importAdd, if_neg himp.2.1, if_pos (himp.1.inCode haddr)]
      simpa using hcall
    · cases hcall
  have hIsImport : ∀ rel ∈ rels, (importAdd header sections v rel).isSome → IsImport header sections rel := by
    intro rel hrel hadd
    have hcall := himport rel hrel hadd
    unfold importCall at hcall
    split at hcall
    · assumption
    · cases hcall
  intro rel hrel
  constructor
  · intro hdef
    refine ⟨hsite rel hrel hdef, fun hnot hin => ?_⟩
    have hcall := hdata rel hrel (by rw [dataAdd, if_pos ⟨hnot, hin⟩]; simpa using hdef)
    unfold dataCall at hcall
    split at hcall
    · next hd =>
      obtain ⟨value, hvalue⟩ := Option.isSome_iff_exists.mp hdef
      have hpos : sitePos header rel = some (dataPos header rel) := by
        rw [sitePos, if_neg hd.1.1, if_pos hd.1]
      exact ⟨hd.1, hd.2, (h.word rel hrel value hvalue _ hpos).1⟩
    · cases hcall
  · intro index hindex htype
    constructor
    · intro hin
      have hfirst := hadds.found rel hrel index hindex htype (.inl hin)
      have himp := hIsImport rel hrel (by
        rw [importAdd, if_neg htype, if_pos hin, hindex]
        simpa using isSome_dllname hfirst)
      exact ⟨himp.1, hfirst⟩
    · intro hnot hin
      have hfirst := hadds.found rel hrel index hindex htype (.inr hin)
      have himp := hIsImport rel hrel (by
        rw [importAdd, if_neg htype, if_neg hnot, if_pos hin, hindex]
        simpa using isSome_dllname hfirst)
      exact hnot (himp.1.inCode haddr)

/-! ### What the file gains -/

theorem codeAdd_eq (haddr : Addressable header) {out : Bytes} (hreg : Regular header sections out v rel) :
    codeAdd header sections rel = codeCall header sections rel := by
  unfold codeAdd codeCall
  cases hvalue : definedValue sections rel with
  | none => simp
  | some value =>
    obtain ⟨hcode, -⟩ := hreg.1 (by rw [hvalue]; rfl)
    by_cases hin : InCode header rel.r_offset
    · rw [if_pos hin, if_pos (hcode hin)]
    · rw [if_neg hin, if_neg fun h => hin (h.1.inCode haddr)]

theorem dataAdd_eq (haddr : Addressable header) {out : Bytes} (hreg : Regular header sections out v rel) :
    dataAdd header sections rel = dataCall header sections rel := by
  unfold dataAdd dataCall
  cases hvalue : definedValue sections rel with
  | none => simp
  | some value =>
    obtain ⟨hcode, hdata⟩ := hreg.1 (by rw [hvalue]; rfl)
    by_cases hin : ¬ InCode header rel.r_offset ∧ InData header rel.r_offset
    · obtain ⟨hsite, htype, -⟩ := hdata hin.1 hin.2
      rw [if_pos hin, if_pos ⟨hsite, htype⟩]
    · rw [if_neg hin, if_neg]
      rintro ⟨hsite, -⟩
      exact hin ⟨fun hc => hsite.1 (hcode hc).1, hsite.inData haddr⟩

theorem importAdd_eq (haddr : Addressable header) {out : Bytes} (hreg : Regular header sections out v rel) :
    importAdd header sections v rel = importCall header sections v rel := by
  unfold importAdd importCall
  by_cases htype : rel.type = R_ARM_NONE
  · rw [if_pos htype, if_neg fun h => h.2.1 htype]
  rw [if_neg htype]
  cases hindex : undefinedVersion sections rel with
  | none => simp
  | some index =>
    obtain ⟨hcode, hdata⟩ := hreg.2 index hindex htype
    by_cases hin : InCode header rel.r_offset
    · rw [if_pos hin, if_pos ⟨(hcode hin).1, htype, by rw [hindex]; rfl⟩]
    · rw [if_neg hin, if_neg (hdata hin), if_neg fun h => hin (h.1.inCode haddr)]

theorem isSome_importCall (haddr : Addressable header) {out : Bytes} (hreg : Regular header sections out v rel)
    (himp : IsImport header sections rel) : (importCall header sections v rel).isSome := by
  obtain ⟨hsite, htype, hsome⟩ := himp
  obtain ⟨index, hindex⟩ := Option.isSome_iff_exists.mp hsome
  obtain ⟨-, hfirst⟩ := (hreg.2 index hindex htype).1 (hsite.inCode haddr)
  rw [importCall, if_pos ⟨hsite, htype, hsome⟩, hindex]
  simpa using isSome_dllname hfirst

theorem checkImport_total {stack : Bytes} (hfind : ∀ symbol lib, ∃ ordinal, findOrdinal symbol lib = .ok ordinal)
    {name : Option CString} (dsoname dllname : CString) (s : RelocState) :
    ∃ s', checkImport stack findOrdinal header rel name (some dsoname) (some dllname) s = .ok s' := by
  have hfix : ∀ offset, ∃ out, fixImportRelocationByName stack findOrdinal offset s.out name dsoname = .ok out := by
    intro offset
    obtain ⟨ordinal, hordinal⟩ := hfind name dsoname
    unfold fixImportRelocationByName
    rw [hordinal]
    cases ordinal with
    | some ordinal => exact ⟨_, rfl⟩
    | none => exact ⟨_, rfl⟩
  have hadd : ∀ offset addr, ∃ s', (do
      let out ← fixImportRelocationByName stack findOrdinal offset s.out name dsoname
      return { s with out := out }.addImport dllname addr : Except Stop RelocState) = .ok s' := by
    intro offset addr
    obtain ⟨out, hout⟩ := hfix offset
    exact ⟨_, bind_eq_ok.mpr ⟨out, hout, rfl⟩⟩
  unfold checkImport
  simp only
  split
  · split
    · exact hadd _ _
    · split
      · exact hadd _ _
      · exact ⟨_, rfl⟩
  · exact ⟨_, rfl⟩

theorem checkRelocation_total (stack : Bytes)
    (hfind : ∀ symbol lib, ∃ ordinal, findOrdinal symbol lib = .ok ordinal)
    (s : RelocState) (hsym : rel.sym < sections.dynsyms.length) {out : Bytes}
    (hreg : Regular header sections out v rel) :
    ∃ s', checkRelocation stack findOrdinal elf sections header rel s = .ok s' := by
  obtain ⟨sym, index, hs, hi, ⟨hdef, -, -⟩ | ⟨hdef, -, hindex⟩⟩ := symbol_cases v hsym
  · unfold checkRelocation
    simp only [hs, hi, hdef, ne_eq, not_false_eq_true, if_true]
    exact ⟨_, rfl⟩
  · unfold checkRelocation
    simp only [hs, hi, hdef, ne_eq, not_true_eq_false, if_false, v.verneedLink]
    by_cases hfirst : v.IsFirst index
    · obtain ⟨dso, dll, hboth, -⟩ := v.getLibraryNames_of_isFirst hfirst
      rw [hboth]
      exact checkImport_total hfind dso dll s
    · rw [v.getLibraryNames_of_not_isFirst hfirst]
      show ∃ s', checkImport stack findOrdinal header rel
        (elf.elf_strptr sections.dynsymLink sym.st_name) none none s = .ok s'
      unfold checkImport
      simp only
      split
      · next htype =>
        obtain ⟨hcode, hdata⟩ := hreg.2 index hindex htype
        rw [if_neg fun hin => hfirst (hcode hin).2, if_neg (hdata fun hin => hfirst (hcode hin).2)]
        exact ⟨_, rfl⟩
      · exact ⟨_, rfl⟩

theorem wordAt_congr {a b : Bytes} {pos : ℕ} (h : ∀ i, pos ≤ i → i < pos + 4 → a[i]? = b[i]?) :
    wordAt a pos = wordAt b pos := by
  have hread : readAt a pos 4 = readAt b pos 4 := by
    unfold readAt
    ext i : 1
    rw [List.getElem?_take, List.getElem?_take, List.getElem?_drop, List.getElem?_drop]
    split
    · exact h (pos + i) (by omega) (by omega)
    · rfl
  rw [wordAt, wordAt, hread]

variable {out : Bytes}

theorem wordAt_writeAt {pos : ℕ} (h : pos + 4 ≤ out.length) (word : UInt32) :
    wordAt (writeAt out pos (writeUint32 word)) pos = word := by
  have hread : readAt (writeAt out pos (writeUint32 word)) pos 4 = writeUint32 word := by
    have hlen : (out.take pos).length = pos := by
      rw [List.length_take]
      omega
    rw [writeAt, Nat.sub_eq_zero_of_le (by omega), List.replicate_zero, List.append_nil, List.append_assoc, readAt,
      List.drop_left' hlen, List.take_left' (length_writeUint32 word)]
  rw [wordAt, hread, writeUint32, ofLE_leBytes_of_lt (by norm_num; exact word.toNat_lt), UInt32.ofNat_toNat]

theorem readWord_eq {pos : ℕ} (h : pos + 4 ≤ out.length) : readWord stack out pos = wordAt out pos := by
  have hlen : (readAt out pos 4).length = 4 := by
    rw [readAt, List.length_take, List.length_drop]
    omega
  unfold readWord wordAt
  simp only
  rw [hlen, Nat.sub_self, List.take_zero, List.append_nil]

theorem fixed_spec (stack : Bytes) (rel : Elf32_Rel) (value : UInt32) {out : Bytes} {offset : UInt32}
    (h : offset.toNat + 4 ≤ out.length) :
    (fixed stack rel value offset out).length = out.length ∧
    (∀ i, ¬ (offset.toNat ≤ i ∧ i < offset.toNat + 4) → (fixed stack rel value offset out)[i]? = out[i]?) ∧
    wordAt (fixed stack rel value offset out) offset.toNat =
      wordAt out offset.toNat + if rel.type = R_ARM_RELATIVE then 0 else value := by
  unfold fixed fixRelocation
  split
  · next htype =>
    rw [readWord_eq h]
    have hlen : (writeUint32 (value + wordAt out offset.toNat)).length = 4 := length_writeUint32 _
    refine ⟨length_writeAt_of_le (by rw [hlen]; exact h), fun i hi => ?_, ?_⟩
    · exact getElem?_writeAt_out (by omega) (by rw [hlen]; omega)
    · rw [wordAt_writeAt h, UInt32.add_comm]
  · next htype => exact ⟨rfl, fun i _ => rfl, by rw [if_pos (not_not.mp htype), UInt32.add_zero]⟩

theorem ImportFixed.spec {out out' : Bytes} {offset : UInt32} (hfix : ImportFixed offset out out')
    (h : offset.toNat + 4 ≤ out.length) :
    out'.length = out.length ∧ ∀ i, ¬ (offset.toNat ≤ i ∧ i < offset.toNat + 4) → out'[i]? = out[i]? := by
  rcases hfix with rfl | ⟨word, rfl⟩
  · exact ⟨rfl, fun i _ => rfl⟩
  · have hlen : (writeUint32 word).length = 4 := length_writeUint32 _
    exact ⟨length_writeAt_of_le (by rw [hlen]; exact h),
      fun i hi => getElem?_writeAt_out (by omega) (by rw [hlen]; omega)⟩

/-- What an entry does to the file. -/
structure Patches (header : E32ImageHeader) (sections : RelocSections) (rels : List Elf32_Rel) (out out' : Bytes) :
    Prop where
  length : out'.length = out.length
  frame : ∀ i, (∀ rel ∈ rels, ¬ MayChange header sections rel i) → out'[i]? = out[i]?
  word : ∀ rel ∈ rels, ∀ value, definedValue sections rel = some value → ∀ pos, sitePos header rel = some pos →
    pos + 4 ≤ out.length ∧ wordAt out' pos = wordAt out pos + addend rel value

theorem sitePos_code (h : CodeSite header rel) : sitePos header rel = some (codePos header rel) := by
  rw [sitePos, if_pos h]

theorem sitePos_data (h : DataSite header rel) : sitePos header rel = some (dataPos header rel) := by
  rw [sitePos, if_neg h.1, if_pos h]

theorem toNat_codePos (hr : FileRanges header out) (h : CodeSite header rel) :
    (rel.r_offset - header.codeBase + header.codeOffset).toNat = codePos header rel ∧
      codePos header rel + 4 ≤ out.length := by
  obtain ⟨h1, h2⟩ := h
  have hcode := hr.code
  have hshort := hr.short
  have hsub := UInt32.toNat_sub_of_le _ _ (UInt32.le_iff_toNat_le.mpr h1)
  unfold codePos
  rw [UInt32.toNat_add, hsub]
  omega

theorem toNat_dataPos (hr : FileRanges header out) (h : DataSite header rel)
    (hpos : dataPos header rel + 4 ≤ out.length) :
    (rel.r_offset - header.dataBase + header.dataOffset).toNat = dataPos header rel := by
  obtain ⟨-, h1, -⟩ := h
  have hshort := hr.short
  have hsub := UInt32.toNat_sub_of_le _ _ (UInt32.le_iff_toNat_le.mpr h1)
  unfold dataPos at hpos ⊢
  rw [UInt32.toNat_add, hsub]
  omega

theorem sitePos_apart (hr : FileRanges header out) {rel' : Elf32_Rel} (hap : rel.Apart rel')
    {pos pos' : ℕ} (hpos : sitePos header rel = some pos) (hpos' : sitePos header rel' = some pos') :
    pos + 4 ≤ pos' ∨ pos' + 4 ≤ pos := by
  have hbehind {r : Elf32_Rel} (h : DataSite header r) :
      header.codeOffset.toNat + header.codeSize.toUInt32.toNat ≤ header.dataOffset.toNat := by
    refine hr.apart fun h0 => ?_
    obtain ⟨-, h1, h2⟩ := h
    rw [h0] at h2
    have hzero : (0 : UInt32).toNat = 0 := rfl
    omega
  unfold sitePos at hpos hpos'
  unfold Elf32_Rel.Apart at hap
  split at hpos
  · next hc =>
    cases hpos
    split at hpos'
    · next hc' =>
      cases hpos'
      unfold CodeSite at hc hc'
      unfold codePos
      omega
    · split at hpos'
      · next hd' =>
        cases hpos'
        have := hbehind hd'
        unfold CodeSite at hc
        unfold codePos dataPos
        omega
      · cases hpos'
  · split at hpos
    · next hd =>
      cases hpos
      have := hbehind hd
      split at hpos'
      · next hc' =>
        cases hpos'
        unfold CodeSite at hc'
        unfold codePos dataPos
        omega
      · split at hpos'
        · next hd' =>
          cases hpos'
          obtain ⟨-, h1, -⟩ := hd
          obtain ⟨-, h1', -⟩ := hd'
          unfold dataPos
          omega
        · cases hpos'
    · cases hpos

theorem sitePos_outside (haddr : Addressable header) (hcode : ¬ InCode header rel.r_offset)
    (hdata : ¬ InData header rel.r_offset) : sitePos header rel = none := by
  rw [sitePos, if_neg fun h => hcode (h.inCode haddr), if_neg fun h => hdata (h.inData haddr)]

theorem patches_fixed {value offset : UInt32} (hvalue : definedValue sections rel = some value)
    (htype : rel.type ≠ R_ARM_NONE) (hsite : sitePos header rel = some offset.toNat)
    (h : offset.toNat + 4 ≤ out.length) :
    Patches header sections [rel] out (fixed stack rel value offset out) := by
  obtain ⟨hlen, hframe, hword⟩ := fixed_spec stack rel value h
  refine ⟨hlen, fun i hi => hframe i fun hin => ?_, ?_⟩
  · exact hi rel List.mem_cons_self ⟨htype, .inl (by rw [hvalue]; rfl), _, hsite, hin⟩
  · intro rel' hrel' value' hvalue' pos hpos
    obtain rfl := List.mem_singleton.mp hrel'
    rw [hvalue] at hvalue'
    rw [hsite] at hpos
    cases hvalue'
    cases hpos
    refine ⟨h, ?_⟩
    rw [hword, addend]
    simp only [htype, or_false]

theorem patches_undefined {out out' : Bytes} {index : UInt16} (hindex : undefinedVersion sections rel = some index)
    (hlen : out'.length = out.length)
    (hframe : ∀ i, ¬ MayChange header sections rel i → out'[i]? = out[i]?) :
    Patches header sections [rel] out out' := by
  refine ⟨hlen, fun i hi => hframe i (hi rel List.mem_cons_self), ?_⟩
  intro rel' hrel' value hvalue
  obtain rfl := List.mem_singleton.mp hrel'
  rw [definedValue_eq_none hindex] at hvalue
  cases hvalue

/-- One regular entry is patched as it should be. -/
theorem RelocStep.patches {out₀ : Bytes} (haddr : Addressable header) (hr : FileRanges header out₀)
    (hreg : Regular header sections out₀ v rel) (hlen : s.out.length = out₀.length)
    (h : RelocStep stack header sections v rel s s') : Patches header sections [rel] s.out s'.out := by
  cases h with
  | code value hvalue hcode =>
    obtain ⟨hsite, htype⟩ := (hreg.1 (by rw [hvalue]; rfl)).1 hcode
    obtain ⟨hpos, hin⟩ := toNat_codePos hr hsite
    refine patches_fixed hvalue htype ?_ ?_
    · rw [hpos, sitePos_code hsite]
    · rw [hpos, hlen]
      exact hin
  | data value hvalue hcode hdata =>
    obtain ⟨hsite, htype, hin⟩ := (hreg.1 (by rw [hvalue]; rfl)).2 hcode hdata
    have hpos := toNat_dataPos hr hsite hin
    refine patches_fixed hvalue htype ?_ ?_
    · rw [hpos, sitePos_data hsite]
    · rw [hpos, hlen]
      exact hin
  | outside value hvalue hcode hdata =>
    refine ⟨rfl, fun i _ => rfl, ?_⟩
    intro rel' hrel' value' _ pos hpos
    obtain rfl := List.mem_singleton.mp hrel'
    rw [sitePos_outside haddr hcode hdata] at hpos
    cases hpos
  | importCode index dllname out hindex htype hcode hfirst hname hout =>
    obtain ⟨hsite, -⟩ := (hreg.2 index hindex htype).1 hcode
    obtain ⟨hpos, hin⟩ := toNat_codePos hr hsite
    obtain ⟨hlen', hframe⟩ := hout.spec (by rw [hpos, hlen]; exact hin)
    refine patches_undefined hindex hlen' fun i hi => hframe i fun hin => hi ?_
    exact ⟨htype, .inr ⟨hsite, htype, by rw [hindex]; rfl⟩, _, sitePos_code hsite, by rwa [hpos] at hin⟩
  | importData index dllname out hindex htype hcode hdata hfirst hname hout =>
    exact absurd hdata ((hreg.2 index hindex htype).2 hcode)
  | importOutside index hindex hcode hdata => exact patches_undefined hindex rfl fun i _ => rfl
  | importNone index hindex htype => exact patches_undefined hindex rfl fun i _ => rfl

/-- Regular entries with sites apart are all patched. -/
theorem checkRelocations_patches (stack : Bytes)
    (hfind : ∀ symbol lib, ∃ ordinal, findOrdinal symbol lib = .ok ordinal) {out₀ : Bytes} (haddr : Addressable header)
    (hr : FileRanges header out₀)
    (hsyms : ∀ rel ∈ rels, rel.sym < sections.dynsyms.length) (hap : rels.Pairwise Elf32_Rel.Apart)
    (hreg : ∀ rel ∈ rels, Regular header sections out₀ v rel) (hlen : s.out.length = out₀.length) :
    ∃ s', checkRelocations stack findOrdinal elf sections header rels s = .ok s' ∧
      Patches header sections rels s.out s'.out := by
  induction rels generalizing s with
  | nil => exact ⟨s, rfl, rfl, fun i _ => rfl, nofun⟩
  | cons rel rels ih =>
    obtain ⟨hrel, hrels⟩ := List.pairwise_cons.mp hap
    have hreg' := hreg rel List.mem_cons_self
    obtain ⟨s₁, h1⟩ := checkRelocation_total stack hfind s
      (hsyms rel List.mem_cons_self) hreg'
    have hstep := (checkRelocation_step (v := v) (hsyms rel List.mem_cons_self) h1).patches haddr hr hreg' hlen
    obtain ⟨s', h2, hrest⟩ := ih (fun r hr => hsyms r (List.mem_cons_of_mem _ hr)) hrels
      (fun r hr => hreg r (List.mem_cons_of_mem _ hr)) (hstep.length.trans hlen)
    refine ⟨s', ?_, hrest.length.trans hstep.length, ?_, ?_⟩
    · unfold checkRelocations
      rw [List.foldlM_cons]
      exact bind_eq_ok.mpr ⟨s₁, h1, h2⟩
    · intro i hi
      rw [hrest.frame i fun r hr => hi r (List.mem_cons_of_mem _ hr)]
      refine hstep.frame i fun r hr => ?_
      obtain rfl := List.mem_singleton.mp hr
      exact hi r List.mem_cons_self
    · intro r hmem value hvalue pos hpos
      -- the bytes of a word belong to one entry only
      have hother {r' : Elf32_Rel} (hap : r.Apart r') {i : ℕ} (h1 : pos ≤ i) (h2 : i < pos + 4) :
          ¬ MayChange header sections r' i := by
        rintro ⟨-, -, pos', hpos', hi⟩
        have := sitePos_apart hr hap hpos hpos'
        omega
      rcases List.mem_cons.mp hmem with rfl | hrest'
      · obtain ⟨hin, hword⟩ := hstep.word r List.mem_cons_self value hvalue pos hpos
        refine ⟨hin, ?_⟩
        rw [← hword]
        exact wordAt_congr fun i h1 h2 => hrest.frame i fun r' hr' => hother (hrel r' hr') h1 h2
      · obtain ⟨hin, hword⟩ := hrest.word r hrest' value hvalue pos hpos
        rw [hstep.length] at hin
        refine ⟨hin, ?_⟩
        rw [hword]
        congr 1
        refine wordAt_congr fun i hi₁ hi₂ => hstep.frame i fun r' hr' => ?_
        obtain rfl := List.mem_singleton.mp hr'
        exact hother (hrel r hrest').symm hi₁ hi₂

theorem relocated_of_regular (hfind : ∀ symbol lib, ∃ ordinal, findOrdinal symbol lib = .ok ordinal)
    (haddr : Addressable header) (hr : FileRanges header s.out)
    (hsyms : ∀ rel ∈ rels, rel.sym < sections.dynsyms.length) (hap : rels.Pairwise Elf32_Rel.Apart)
    (hreg : ∀ rel ∈ rels, Regular header sections s.out v rel) :
    ∃ s', checkRelocations stack findOrdinal elf sections header rels s = .ok s' ∧
      Relocated header sections v rels s s' := by
  obtain ⟨s', hrun, hpatches⟩ := checkRelocations_patches stack hfind haddr hr hsyms hap hreg rfl
  have hadds := checkRelocations_adds v hsyms hrun
  refine ⟨s', hrun, hpatches.word, ?_, ?_, ?_, ?_, hpatches.frame⟩
  · rw [← List.filterMap_congr fun rel hrel => codeAdd_eq haddr (hreg rel hrel)]
    exact hadds.code
  · rw [← List.filterMap_congr fun rel hrel => dataAdd_eq haddr (hreg rel hrel)]
    exact hadds.data
  · intro rel hrel
    exact isSome_importCall haddr (hreg rel hrel)
  · rw [← List.filterMap_congr fun rel hrel => importAdd_eq haddr (hreg rel hrel)]
    exact hadds.imports

end

/-! ### The relocations of a run -/

/-- What `checkRelocations` starts from. -/
def startState (p : Prepared) : RelocState :=
  ⟨(layout p).1.out, ImportList.empty, (layout p).2, RelocationList.empty⟩

theorem relocate_eq {env : Environment} {p : Prepared} {sections : RelocSections} (header : E32ImageHeader)
    (s : RelocState) (hs : findRelocSections p.elf = some sections) : relocate env p header s =
      checkRelocations env.stack (fun symbol lib => .ok (env.findOrdinal p.libpath symbol lib)) p.elf sections header
        (relocationEntries p.elf) s := by
  unfold relocate
  split
  · rw [hs]
  · next hany =>
    have hnil : relocationEntries p.elf = [] := by
      refine List.flatMap_eq_nil_iff.mpr fun scn hscn => ?_
      have hne : ¬ scn.sh_type = SHT_REL := by
        intro h
        exact hany (List.any_eq_true.mpr ⟨scn, hscn, by simpa using h⟩)
      split
      · rw [if_neg hne]
      · rfl
    rw [hnil]
    rfl

/-- **Relocations of an image.**  For an image below 4 GiB in a 32-bit address space, with version tables and
entries whose words are apart: all entries come out right exactly when every one of them is regular. -/
theorem relocate_iff_regular {env : Environment} {options : List LongOption} {p : Prepared}
    {sections : RelocSections} (hp : prepare env options = .ok p) (hs : findRelocSections p.elf = some sections)
    (v : VersionTables p.elf sections)
    (hsyms : ∀ rel ∈ relocationEntries p.elf, rel.sym < sections.dynsyms.length)
    (hap : (relocationEntries p.elf).Pairwise Elf32_Rel.Apart)
    (hshort : (layout p).1.out.length < 2 ^ 32) (haddr : Addressable (layout p).1.header) :
    (∃ s', relocate env p (layout p).1.header (startState p) = .ok s' ∧
        Relocated (layout p).1.header sections v (relocationEntries p.elf) (startState p) s') ↔
      ∀ rel ∈ relocationEntries p.elf, Regular (layout p).1.header sections (layout p).1.out v rel := by
  rw [relocate_eq _ _ hs]
  constructor
  · rintro ⟨s', hrun, hrel⟩
    exact regular_of_relocated haddr (checkRelocations_adds v hsyms hrun) hrel
  · intro hreg
    exact relocated_of_regular (fun _ _ => ⟨_, rfl⟩) haddr (layout_ranges (prepare_noBody hp) hshort) hsyms hap hreg

/-! ### An ELF file that shows the limits -/

/-- Version needs of one file. -/
def sampleNeeds (versions : List ℕ) : Bytes :=
  leBytes 2 1 ++ leBytes 2 versions.length ++ leBytes 4 1 ++ leBytes 4 16 ++ leBytes 4 0 ++
    versions.flatMap fun other => leBytes 4 0 ++ leBytes 2 0 ++ leBytes 2 other ++ leBytes 4 1 ++ leBytes 4 16

/-- An ELF file with two words of code at `0x8000`, a symbol that is defined and one of version 3 that is
not. -/
def sampleElf (versions : List ℕ) (rels : List Elf32_Rel) : Elf where
  file := []
  e_entry := 0x8000
  phdrs := [⟨PT_LOAD, 0, 0x8000, 8, 8, PF_R ||| PF_X⟩]
  sections := [
    ⟨arg ".text", 1, SHF_ALLOC, 0x8000, 8, 0, .other, some [1, 0, 0, 0, 2, 0, 0, 0], by rintro d ⟨⟩; decide⟩,
    ⟨arg ".dynsym", SHT_DYNSYM, 0, 0, 0, 0, .ELF_T_SYM [⟨0, 0, 0, 0, 0⟩, ⟨1, 0x8004, 0, 0x12, 1⟩, ⟨1, 0, 0, 0x12, 0⟩],
      none, nofun⟩,
    ⟨arg ".gnu.version", SHT_GNU_versym, 0, 0, 0, 0, .ELF_T_HALF [0, 1, 3], none, nofun⟩,
    ⟨arg ".gnu.version_r", SHT_GNU_verneed, 0, 0, 0, 0, .ELF_T_VNEED (sampleNeeds versions), none, nofun⟩,
    ⟨arg ".dynamic", SHT_DYNAMIC, 0, 0, 0, 0, .ELF_T_DYN [⟨DT_VERNEEDNUM, 1⟩], none, nofun⟩,
    ⟨arg ".rel.dyn", SHT_REL, 0, 0, 0, 0, .ELF_T_REL rels, none, nofun⟩]
  elf_strptr _ _ := some (arg "a")

def sampleSections (versions : List ℕ) : RelocSections where
  dynsyms := [⟨0, 0, 0, 0, 0⟩, ⟨1, 0x8004, 0, 0x12, 1⟩, ⟨1, 0, 0, 0x12, 0⟩]
  dynsymLink := 0
  symver := [0, 1, 3]
  verneed := some (sampleNeeds versions)
  verneedLink := some 0
  verneedNum := 1

theorem findRelocSections_sampleElf (versions : List ℕ) (rels : List Elf32_Rel) :
    findRelocSections (sampleElf versions rels) = some (sampleSections versions) := rfl

/-- The version tables, one auxiliary entry for each version. -/
def sampleTables (versions : List ℕ) (rels : List Elf32_Rel) (hne : versions ≠ []) (hnodup : versions.Nodup)
    (hread : readNeeds (sampleNeeds versions) 1 0 = .ok [⟨1, versions.map fun other => ⟨other, 1⟩⟩]) :
    VersionTables (sampleElf versions rels) (sampleSections versions) where
  data := sampleNeeds versions
  verneed := rfl
  link := 0
  verneedLink := rfl
  needs := [⟨1, versions.map fun other => ⟨other, 1⟩⟩]
  read := hread
  nonempty := by simpa using hne
  distinct := by simpa [Function.comp_def] using hnodup
  file_names _ _ := rfl
  aux_names _ _ _ _ := rfl
  versions := rfl

/-- The command line without options. -/
def sampleOptions : List LongOption := [.elfinput (arg "a"), .output (arg "b")]

/-- The headers behind the command line. -/
def sampleHeaders (elf : Elf) : Headers :=
  (Elf2e32Options.initial (plainEnvironment (some elf) id)).headers.setUidChecksum

/-- What `main` makes of them. -/
def samplePrepared (elf : Elf) : Prepared where
  headers := { sampleHeaders elf with
    header := readProgramHeaders elf.phdrs (sampleHeaders elf).header
    headerV := { (sampleHeaders elf).headerV with
      exportDescType := exportDescTypeOf (sampleHeaders elf) Elf.ExportList.empty
      exceptionDescriptor := exceptionDescriptorOf elf } }
  elf := elf
  exportList := Elf.ExportList.empty.doSort
  libpath := []

theorem prepare_sample (elf : Elf) :
    prepare (plainEnvironment (some elf) id) sampleOptions = .ok (samplePrepared elf) := by
  have hdll : (sampleHeaders elf).isDll = false := by
    have hflags : (sampleHeaders elf).header.flags =
        KImageImpFmt_ELF ||| KImageHdrFmt_V ||| KImageEpt_Eka2 ||| KImageABI_EABI ||| KImageNoCallEntryPoint := rfl
    rw [Headers.isDll, hflags]
    decide
  show prepareElf _ (sampleHeaders elf) elf = _
  unfold prepareElf exportsOf
  simp only [hdll]
  rfl

/-- Two versions are needed of one file, and the import is of the second. -/
def sampleSecond : Elf := sampleElf [2, 3] [⟨0x8004, 0x202⟩]

/-- The import of the second version is looked up in vain, and the run ends there. -/
theorem relocate_second_version :
    ∃ v : VersionTables sampleSecond (sampleSections [2, 3]),
      prepare (plainEnvironment (some sampleSecond) id) sampleOptions = .ok (samplePrepared sampleSecond) ∧
      findRelocSections sampleSecond = some (sampleSections [2, 3]) ∧
      (∀ rel ∈ relocationEntries sampleSecond, rel.sym < (sampleSections [2, 3]).dynsyms.length) ∧
      (relocationEntries sampleSecond).Pairwise Elf32_Rel.Apart ∧
      (layout (samplePrepared sampleSecond)).1.out.length < 2 ^ 32 ∧
      Addressable (layout (samplePrepared sampleSecond)).1.header ∧
      ¬ ∃ s', relocate (plainEnvironment (some sampleSecond) id) (samplePrepared sampleSecond)
          (layout (samplePrepared sampleSecond)).1.header (startState (samplePrepared sampleSecond)) = .ok s' ∧
        Relocated (layout (samplePrepared sampleSecond)).1.header (sampleSections [2, 3]) v
          (relocationEntries sampleSecond) (startState (samplePrepared sampleSecond)) s' := by
  refine ⟨sampleTables [2, 3] _ (by decide) (by decide) (by decide +kernel), prepare_sample _,
    findRelocSections_sampleElf _ _, by decide, List.pairwise_singleton _ _, by decide +kernel,
    ⟨by decide +kernel, by decide +kernel⟩, ?_⟩
  rintro ⟨s', hrun, -⟩
  have hnone : (relocate (plainEnvironment (some sampleSecond) id) (samplePrepared sampleSecond)
      (layout (samplePrepared sampleSecond)).1.header
      (startState (samplePrepared sampleSecond))).toOption.isNone = true := by decide +kernel
  rw [hrun] at hnone
  cases hnone

/-- One version, a defined symbol and an import. -/
def sampleRegular : Elf := sampleElf [3] [⟨0x8000, 0x102⟩, ⟨0x8004, 0x202⟩]

theorem relocate_regular_sample :
    ∃ v : VersionTables sampleRegular (sampleSections [3]),
      ∃ s', relocate (plainEnvironment (some sampleRegular) id) (samplePrepared sampleRegular)
          (layout (samplePrepared sampleRegular)).1.header (startState (samplePrepared sampleRegular)) = .ok s' ∧
        Relocated (layout (samplePrepared sampleRegular)).1.header (sampleSections [3]) v
          (relocationEntries sampleRegular) (startState (samplePrepared sampleRegular)) s' := by
  refine ⟨sampleTables [3] _ (by decide) (by decide) (by decide +kernel),
    (relocate_iff_regular (prepare_sample _) (findRelocSections_sampleElf _ _) _ (by decide) (by decide)
      (by decide +kernel) ⟨by decide +kernel, by decide +kernel⟩).mpr fun rel hrel => ?_⟩
  rcases List.mem_cons.mp hrel with rfl | hrel
  · refine ⟨fun _ => ⟨fun _ => ⟨by decide +kernel, by decide⟩, fun hnot => absurd (by decide +kernel) hnot⟩, ?_⟩
    intro index hindex
    cases hindex
  · obtain rfl := List.mem_singleton.mp hrel
    refine ⟨nofun, fun index hindex _ => ⟨fun _ => ⟨by decide +kernel, ?_⟩, fun hnot => absurd (by decide +kernel) hnot⟩⟩
    cases hindex
    exact ⟨_, List.mem_singleton_self _, by decide⟩

end GnuPoc.E32
