import GnuPoc.E32.Relocated

/-!
# GnuPoc.E32.RelocationSafety — tables that are missing or cut off (`checkRelocations`)

`main` looks for the dynamic symbols, their versions and the version needs, and keeps null pointers for what it does not
find.  The entries of all `REL` sections are then read with these tables; the version needs are a chain of byte offsets,
and the ordinal of an import is looked for in the libraries of the search path.
-/

namespace GnuPoc.E32

open GnuPoc.Lib

/-! ### The chain of version needs -/

/-- A field of a structure that lies inside of the data. -/
def fieldOf (size : ℕ) (data : Bytes) (pos : ℕ) : Option ℕ :=
  if pos + size ≤ data.length then some (ofLE (readAt data pos size)) else none

/-- The version needs that the offsets lead to, as many as there are said to be. -/
def heads (data : Bytes) : ℕ → ℕ → List ℕ
  | 0, _ => []
  | n + 1, need =>
    if need < data.length then
      need :: match fieldOf 4 data (need + 12) with
        | some next => heads data n (need + next)
        | none => []
    else []

/-- The version of the first auxiliary entry. -/
def firstOther (data : Bytes) (need : ℕ) : Option ℕ :=
  (fieldOf 4 data (need + 8)).bind fun aux => fieldOf 2 data (need + aux + 6)

/-- The names of the file and of the version, as offsets. -/
def fileAndName (data : Bytes) (need : ℕ) : Option (ℕ × ℕ) :=
  (fieldOf 4 data (need + 4)).bind fun file =>
    (fieldOf 4 data (need + 8)).bind fun aux => (fieldOf 4 data (need + aux + 8)).map fun name => (file, name)

/-- The first need whose first auxiliary entry has the version. -/
def needOf (data : Bytes) (verneedNum : UInt32) (index : UInt16) : Option ℕ :=
  (heads data verneedNum.toNat 0).find? fun need => firstOther data need = some index.toNat

/-- Every need before the one with the version has a first auxiliary entry and an offset inside of the data, and the
one with the version has its names there. -/
structure NeedsInside (data : Bytes) (verneedNum : UInt32) (index : UInt16) : Prop where
  passed : ∀ need ∈ (heads data verneedNum.toNat 0).takeWhile (fun need => firstOther data need ≠ some index.toNat),
    (firstOther data need).isSome ∧ (fieldOf 4 data (need + 12)).isSome
  found : ∀ need, needOf data verneedNum index = some need → (fileAndName data need).isSome

theorem fieldAt_eq_ok {size pos n : ℕ} {data : Bytes} : fieldAt size data pos = .ok n ↔ fieldOf size data pos = some n := by
  unfold fieldAt fieldOf
  split
  · exact ⟨fun h => congrArg some (Except.ok.inj h), fun h => congrArg Except.ok (Option.some.inj h)⟩
  · exact ⟨nofun, nofun⟩

theorem firstOther_eq_some {data : Bytes} {need other : ℕ} : firstOther data need = some other ↔
    ∃ aux, vn_aux data need = .ok aux ∧ vna_other data (need + aux) = .ok other := by
  simp only [firstOther, Option.bind_eq_some_iff, vn_aux, vna_other, fieldAt_eq_ok]

/-- The walk over the version needs stays inside up to the one it looks for. -/
theorem getLibraryNameFrom_ok_iff {data : Bytes} {index : UInt16} {n pos : ℕ} {r : Option (ℕ × ℕ)} :
    getLibraryNameFrom data index n pos = .ok r ↔
      (∀ need ∈ (heads data n pos).takeWhile (fun need => firstOther data need ≠ some index.toNat),
        (firstOther data need).isSome ∧ (fieldOf 4 data (need + 12)).isSome) ∧
      r = ((heads data n pos).find? fun need => firstOther data need = some index.toNat).bind fun need =>
        (fieldOf 4 data (need + 8)).map fun aux => (need, need + aux) := by
  induction n generalizing pos with
  | zero =>
    simp only [getLibraryNameFrom, heads, List.takeWhile_nil, List.not_mem_nil, false_implies, implies_true, true_and,
      List.find?_nil, Option.bind_none, Except.ok.injEq, eq_comm]
  | succ n ih =>
    rw [getLibraryNameFrom, heads]
    by_cases hin : pos < data.length
    swap
    · simp only [if_neg hin, List.takeWhile_nil, List.not_mem_nil, false_implies, implies_true, true_and, List.find?_nil,
        Option.bind_none, Except.ok.injEq, eq_comm]
    simp only [if_pos hin]
    cases hother : firstOther data pos with
    | none =>
      -- the first auxiliary entry is not there
      refine iff_of_false ?_ ?_
      · intro h
        obtain ⟨aux, haux, h⟩ := bind_eq_ok.mp h
        obtain ⟨other, hread, -⟩ := bind_eq_ok.mp h
        rw [firstOther_eq_some.mpr ⟨aux, haux, hread⟩] at hother
        cases hother
      · rintro ⟨hall, -⟩
        have hmem := hall pos (by rw [List.takeWhile_cons_of_pos (by simp [hother])]; exact List.mem_cons_self)
        rw [hother] at hmem
        exact absurd hmem.1 (by simp)
    | some other =>
      obtain ⟨aux, haux, hread⟩ := firstOther_eq_some.mp hother
      rw [haux]
      change (vna_other data (pos + aux) >>= _) = _ ↔ _
      rw [hread]
      change (if other = index.toNat then _ else _) = _ ↔ _
      by_cases heq : other = index.toNat
      · rw [if_pos heq, List.takeWhile_cons_of_neg (by simp [hother, heq]),
          List.find?_cons_of_pos (by simp [hother, heq])]
        have hfield : fieldOf 4 data (pos + 8) = some aux := fieldAt_eq_ok.mp haux
        rw [Option.bind_some, hfield]
        simp only [List.not_mem_nil, false_implies, implies_true, true_and]
        exact ⟨fun h => (Except.ok.inj h).symm, fun h => by rw [h]; rfl⟩
      · rw [if_neg heq, List.takeWhile_cons_of_pos (by simp [hother, heq]),
          List.find?_cons_of_neg (by simp [hother, heq])]
        cases hnext : fieldOf 4 data (pos + 12) with
        | none =>
          refine iff_of_false ?_ ?_
          · intro h
            obtain ⟨next, hread', -⟩ := bind_eq_ok.mp h
            rw [fieldAt_eq_ok.mp hread'] at hnext
            cases hnext
          · rintro ⟨hall, -⟩
            have hmem := (hall pos List.mem_cons_self).2
            rw [hnext] at hmem
            exact absurd hmem (by simp)
        | some next =>
          have hread' : vn_next data pos = .ok next := fieldAt_eq_ok.mpr hnext
          rw [hread']
          change getLibraryNameFrom data index n (pos + next) = .ok r ↔ _
          rw [ih, List.forall_mem_cons, hother, hnext]
          simp

/-! ### The names of a version -/

section
variable (elf : Elf) (sections : RelocSections)

/-- The names of the file and of the version that an index stands for, if both are there. -/
def libraryOf (index : UInt16) : Option (CString × CString) :=
  sections.verneedLink.bind fun link =>
    sections.verneed.bind fun data =>
      (needOf data sections.verneedNum index).bind fun need =>
        (fileAndName data need).bind fun offsets =>
          (elf.elf_strptr link (UInt32.ofNat offsets.1)).bind fun dsoname =>
            (elf.elf_strptr link (UInt32.ofNat offsets.2)).map fun dllname => (dsoname, dllname)

/-- What has to be there to look a version up: a section of version needs, and its chain as far as it is walked. -/
def VersionInside (index : UInt16) : Prop :=
  sections.verneedLink.isSome ∧ ∀ data, sections.verneed = some data → NeedsInside data sections.verneedNum index

end

section
variable {elf : Elf} {sections : RelocSections} {link : UInt32} {index : UInt16}

theorem fileAndName_eq_some {data : Bytes} {need file name : ℕ} : fileAndName data need = some (file, name) ↔
    vn_file data need = .ok file ∧ ∃ aux, vn_aux data need = .ok aux ∧ vna_name data (need + aux) = .ok name := by
  simp only [fileAndName, Option.bind_eq_some_iff, Option.map_eq_some_iff, vn_file, vn_aux, vna_name, fieldAt_eq_ok]
  constructor
  · rintro ⟨file', hfile, aux, haux, name', hname, heq⟩
    cases heq
    exact ⟨hfile, aux, haux, hname⟩
  · rintro ⟨hfile, aux, haux, hname⟩
    exact ⟨file, hfile, aux, haux, name, hname, rfl⟩

/-- `getLibraryName` in terms of the chain. -/
theorem getLibraryName_ok {data : Bytes} {verneedNum : UInt32}
    (hpassed : ∀ need ∈ (heads data verneedNum.toNat 0).takeWhile (fun need => firstOther data need ≠ some index.toNat),
      (firstOther data need).isSome ∧ (fieldOf 4 data (need + 12)).isSome) :
    getLibraryName (some data) verneedNum index = .ok ((needOf data verneedNum index).bind fun need =>
      (fieldOf 4 data (need + 8)).map fun aux => (need, need + aux)) :=
  getLibraryNameFrom_ok_iff.mpr ⟨hpassed, rfl⟩

theorem firstOther_of_needOf {data : Bytes} {verneedNum : UInt32} {need : ℕ}
    (h : needOf data verneedNum index = some need) : firstOther data need = some index.toNat := by
  have := List.find?_some h
  simpa using this

theorem getLibraryNames_ok (elf : Elf) (hlink : sections.verneedLink = some link) (h : VersionInside sections index) :
    ∃ dsoname dllname,
      getLibraryNames elf link sections.verneed sections.verneedNum index = .ok (dsoname, dllname) ∧
      libraryOf elf sections index = dsoname.bind fun dsoname => dllname.map fun dllname => (dsoname, dllname) := by
  unfold libraryOf getLibraryNames
  rw [hlink]
  simp only [Option.bind_some]
  cases hdata : sections.verneed with
  | none => exact ⟨none, none, rfl, rfl⟩
  | some data =>
    obtain ⟨hpassed, hfound⟩ := h.2 data hdata
    rw [getLibraryName_ok hpassed]
    cases hneed : needOf data sections.verneedNum index with
    | none => exact ⟨none, none, rfl, by rw [Option.bind_some, hneed]; rfl⟩
    | some need =>
      obtain ⟨⟨file, name⟩, hnames⟩ := Option.isSome_iff_exists.mp (hfound need hneed)
      obtain ⟨hfile, aux, haux, hname⟩ := fileAndName_eq_some.mp hnames
      have hfield : fieldOf 4 data (need + 8) = some aux := fieldAt_eq_ok.mp haux
      refine ⟨elf.elf_strptr link (UInt32.ofNat file), elf.elf_strptr link (UInt32.ofNat name), ?_, ?_⟩
      · simp only [Option.bind_some, hfield, Option.map_some]
        change (vn_file data need >>= _) = _
        rw [hfile]
        change (vna_name data (need + aux) >>= _) = _
        rw [hname]
        rfl
      · simp only [Option.bind_some, hneed, hnames]

theorem versionInside_of_ok {names : Option CString × Option CString} (hlink : sections.verneedLink = some link)
    (h : getLibraryNames elf link sections.verneed sections.verneedNum index = .ok names) :
    VersionInside sections index := by
  refine ⟨by rw [hlink]; rfl, fun data hdata => ?_⟩
  unfold getLibraryNames at h
  rw [hdata] at h
  obtain ⟨r, hr, h⟩ := bind_eq_ok.mp h
  obtain ⟨hpassed, hfind⟩ := getLibraryNameFrom_ok_iff.mp hr
  refine ⟨hpassed, fun need hneed => ?_⟩
  obtain ⟨aux, haux, -⟩ := firstOther_eq_some.mp (firstOther_of_needOf hneed)
  have hfield : fieldOf 4 data (need + 8) = some aux := fieldAt_eq_ok.mp haux
  have hr' : r = some (need, need + aux) := by
    rw [hfind]
    change (needOf data sections.verneedNum index).bind _ = _
    rw [hneed, Option.bind_some, hfield]
    rfl
  rw [hr'] at h
  obtain ⟨file, hfile, h⟩ := bind_eq_ok.mp h
  obtain ⟨name, hname, -⟩ := bind_eq_ok.mp h
  have hboth : fileAndName data need = some (file, name) := fileAndName_eq_some.mpr ⟨hfile, aux, haux, hname⟩
  rw [hboth]
  rfl

end

/-! ### The libraries of the search path -/

/-- The word at an address behind which a section still lies is inside of its data. -/
structure WordInside (progbits : Elf_Scn) (addr : UInt32) : Prop where
  data : progbits.rawdata.isSome ∨ progbits.sh_size = 0
  word : progbits.sh_size ≤ addr ∨ addr.toNat + 4 ≤ progbits.sh_size.toNat

/-- The first symbol of a name. -/
def symbolNamed (elf : Elf) (sh_link : UInt32) (name : CString) (syms : List Elf32_Sym) : Option Elf32_Sym :=
  syms.find? fun sym => ((elf.elf_strptr sh_link sym.st_name).map CString.chars) = some name.chars

/-- A library has no named symbol to compare a missing name with, and the word of a symbol's ordinal. -/
structure LibraryInside (elf : Elf) (symbol : Option CString) : Prop where
  unnamed : symbol = none → ∀ sh_link syms, dynsymTable elf = some (sh_link, syms) →
    ∀ sym ∈ syms, elf.elf_strptr sh_link sym.st_name = none
  word : ∀ name sh_link syms sym progbits, symbol = some name → dynsymTable elf = some (sh_link, syms) →
    symbolNamed elf sh_link name syms = some sym → findSection elf SHT_PROGBITS = some progbits →
      WordInside progbits (sym.st_value - progbits.sh_addr)

/-- Each path fits in its buffer and each library is as it should be, until one has the ordinal. -/
def SearchInside (library : CString → CString → Option Elf) : List CString → Option CString → CString → Prop
  | [], _, _ => True
  | dir :: libpath, symbol, lib =>
    dir.chars.length + 1 + lib.chars.length < 1000 ∧
      match library dir lib with
      | none => SearchInside library libpath symbol lib
      | some elf =>
        LibraryInside elf symbol ∧ (ordinalOf elf symbol = .ok none → SearchInside library libpath symbol lib)

theorem findSymbolFrom_name {elf : Elf} {sh_link : UInt32} {name : CString} (syms : List Elf32_Sym) :
    findSymbolFrom elf sh_link (some name) syms = .ok (symbolNamed elf sh_link name syms) := by
  induction syms with
  | nil => rfl
  | cons sym rest ih =>
    unfold findSymbolFrom symbolNamed
    cases hname : elf.elf_strptr sh_link sym.st_name with
    | none =>
      rw [List.find?_cons_of_neg (by simp [hname])]
      exact ih
    | some name' =>
      by_cases heq : name'.chars = name.chars
      · rw [List.find?_cons_of_pos (by simp [hname, heq])]
        exact if_pos heq
      · rw [List.find?_cons_of_neg (by simp [hname, heq])]
        exact (if_neg heq).trans ih

theorem findSymbolFrom_unnamed {elf : Elf} {sh_link : UInt32} {syms : List Elf32_Sym} {r : Option Elf32_Sym} :
    findSymbolFrom elf sh_link none syms = .ok r ↔
      (∀ sym ∈ syms, elf.elf_strptr sh_link sym.st_name = none) ∧ r = none := by
  induction syms with
  | nil => simp [findSymbolFrom, eq_comm]
  | cons sym rest ih =>
    unfold findSymbolFrom
    cases hname : elf.elf_strptr sh_link sym.st_name with
    | none => simp [ih, hname]
    | some name => simp [hname]

/-- The word of the ordinal is read where it lies inside of the section. -/
theorem readOrdinal_ok_iff {progbits : Elf_Scn} {addr : UInt32} :
    (∃ r, readOrdinal progbits addr = .ok r) ↔ WordInside progbits addr := by
  unfold readOrdinal
  cases hraw : progbits.rawdata with
  | none =>
    by_cases hsize : progbits.sh_size = 0
    · simp only [if_pos hsize]
      exact iff_of_true ⟨_, rfl⟩ ⟨.inr hsize, .inl (by rw [hsize]; exact UInt32.zero_le)⟩
    · simp only [if_neg hsize]
      refine iff_of_false nofun fun h => ?_
      rcases h.data with hdata | hdata
      · rw [hraw] at hdata
        cases hdata
      · exact hsize hdata
  | some data =>
    have hlen := (progbits.rawdata_size data hraw).1
    simp only [hlen]
    by_cases hle : progbits.sh_size.toNat ≤ addr.toNat
    · rw [if_pos hle]
      exact iff_of_true ⟨_, rfl⟩ ⟨.inl (by rw [hraw]; rfl), .inl hle⟩
    rw [if_neg hle]
    by_cases hword : addr.toNat + 4 ≤ progbits.sh_size.toNat
    · rw [if_pos hword]
      exact iff_of_true ⟨_, rfl⟩ ⟨.inl (by rw [hraw]; rfl), .inr hword⟩
    · rw [if_neg hword]
      exact iff_of_false nofun fun h => h.word.elim hle hword

theorem ordinalOf_name {elf : Elf} {sh_link : UInt32} {syms : List Elf32_Sym} (htable : dynsymTable elf = some (sh_link, syms))
    (name : CString) : ordinalOf elf (some name) = ordinalAt elf (symbolNamed elf sh_link name syms) := by
  unfold ordinalOf
  rw [htable]
  simp only [findSymbolFrom_name]
  rfl

theorem ordinalAt_ok_iff {elf : Elf} {found : Option Elf32_Sym} : (∃ r, ordinalAt elf found = .ok r) ↔
    ∀ sym progbits, found = some sym → findSection elf SHT_PROGBITS = some progbits →
      WordInside progbits (sym.st_value - progbits.sh_addr) := by
  cases found with
  | none => exact iff_of_true ⟨none, rfl⟩ nofun
  | some sym =>
    unfold ordinalAt
    cases hprog : findSection elf SHT_PROGBITS with
    | none => exact iff_of_true ⟨none, rfl⟩ nofun
    | some progbits =>
      refine readOrdinal_ok_iff.trans ⟨?_, fun h => h sym progbits rfl rfl⟩
      rintro h _ _ ⟨⟩ ⟨⟩
      exact h

/-- The ordinal of a symbol is looked up inside of its library. -/
theorem ordinalOf_ok_iff {elf : Elf} {symbol : Option CString} :
    (∃ r, ordinalOf elf symbol = .ok r) ↔ LibraryInside elf symbol := by
  cases htable : dynsymTable elf with
  | none =>
    refine iff_of_true ⟨none, ?_⟩ ⟨?_, ?_⟩
    · unfold ordinalOf
      rw [htable]
    · intro _ _ _ h
      cases htable.symm.trans h
    · intro _ _ _ _ _ _ h
      cases htable.symm.trans h
  | some table =>
    obtain ⟨sh_link, syms⟩ := table
    cases symbol with
    | none =>
      unfold ordinalOf
      rw [htable]
      constructor
      · rintro ⟨r, h⟩
        obtain ⟨found, hfound, -⟩ := bind_eq_ok.mp h
        refine ⟨fun _ sh_link' syms' htable' => ?_, nofun⟩
        cases htable.symm.trans htable'
        exact (findSymbolFrom_unnamed.mp hfound).1
      · intro h
        exact ⟨none, bind_eq_ok.mpr
          ⟨none, findSymbolFrom_unnamed.mpr ⟨h.unnamed rfl sh_link syms htable, rfl⟩, rfl⟩⟩
    | some name =>
      rw [ordinalOf_name htable, ordinalAt_ok_iff]
      constructor
      · intro h
        refine ⟨nofun, ?_⟩
        rintro _ _ _ sym progbits ⟨⟩ htable' hsym hprog
        cases htable.symm.trans htable'
        exact h sym progbits hsym hprog
      · intro h sym progbits hsym hprog
        exact h.word name sh_link syms sym progbits rfl htable hsym hprog

/-- The search over the libraries ends with an ordinal or without one exactly where all stays inside. -/
theorem searchOrdinal_ok_iff {library : CString → CString → Option Elf} {symbol : Option CString} {lib : CString}
    (libpath : List CString) :
    (∃ r, searchOrdinal library libpath symbol lib = .ok r) ↔ SearchInside library libpath symbol lib := by
  induction libpath with
  | nil => exact iff_of_true ⟨none, rfl⟩ trivial
  | cons dir libpath ih =>
    unfold searchOrdinal SearchInside
    by_cases hfits : dir.chars.length + 1 + lib.chars.length < 1000
    swap
    · rw [if_neg hfits]
      exact iff_of_false nofun fun h => hfits h.1
    rw [if_pos hfits]
    cases library dir lib with
    | none => exact ih.trans ⟨fun h => ⟨hfits, h⟩, fun h => h.2⟩
    | some elf =>
      constructor
      · rintro ⟨r, h⟩
        obtain ⟨ordinal, hordinal, h⟩ := bind_eq_ok.mp h
        refine ⟨hfits, ordinalOf_ok_iff.mp ⟨ordinal, hordinal⟩, fun hnone => ?_⟩
        cases hordinal.symm.trans hnone
        exact ih.mp ⟨r, h⟩
      · rintro ⟨-, hlibrary, hrest⟩
        obtain ⟨ordinal, hordinal⟩ := ordinalOf_ok_iff.mpr hlibrary
        cases ordinal with
        | some ordinal => exact ⟨some ordinal, bind_eq_ok.mpr ⟨_, hordinal, rfl⟩⟩
        | none =>
          obtain ⟨r, hr⟩ := ih.mpr (hrest hordinal)
          exact ⟨r, bind_eq_ok.mpr ⟨none, hordinal, hr⟩⟩

/-! ### One entry -/

/-- What an import that is not made is reported with. -/
inductive Message
  | importNotInCode (symbol : Option CString)
  | unhandledImport (symbol : Option CString)
  deriving DecidableEq

/-- What the branch for an undefined symbol prints. -/
def importMessages (header : E32ImageHeader) (rel : Elf32_Rel) (name : Option CString) : List Message :=
  if rel.type ≠ R_ARM_NONE then
    if InCode header rel.r_offset then []
    else if InData header rel.r_offset then [.importNotInCode name]
    else [.unhandledImport name]
  else []

section
variable (elf : Elf) (sections : RelocSections) (header : E32ImageHeader)

/-- An entry against an undefined symbol, whose library cannot be determined. -/
def Undetermined (rel : Elf32_Rel) (sym : Elf32_Sym) : Prop :=
  sections.dynsyms[rel.sym]? = some sym ∧ sym.st_shndx = 0 ∧
    ∀ index, sections.symver[rel.sym]? = some index → libraryOf elf sections index = none

/-- All that an entry leads to is inside of the tables; one whose library cannot be determined is not of type
`R_ARM_NONE`, and does not stand in the code or the data, and for one with a library the search stays inside. -/
structure EntryInside (library : CString → CString → Option Elf) (libpath : List CString) (rel : Elf32_Rel) : Prop where
  version : rel.sym < sections.symver.length
  needs : ∀ sym index, sections.dynsyms[rel.sym]? = some sym → sym.st_shndx = 0 →
    sections.symver[rel.sym]? = some index → VersionInside sections index
  outside : ∀ sym, Undetermined elf sections rel sym →
    rel.type ≠ R_ARM_NONE ∧ ¬ InCode header rel.r_offset ∧ ¬ InData header rel.r_offset
  lookup : ∀ sym index dsoname dllname, sections.dynsyms[rel.sym]? = some sym → sym.st_shndx = 0 →
    sections.symver[rel.sym]? = some index → libraryOf elf sections index = some (dsoname, dllname) →
      rel.type ≠ R_ARM_NONE → InCode header rel.r_offset ∨ InData header rel.r_offset →
        SearchInside library libpath (elf.elf_strptr sections.dynsymLink sym.st_name) dsoname

/-- An entry whose library cannot be determined is reported and changes nothing. -/
def Reported (stack : Bytes) (findOrdinal : Option CString → CString → Except Stop (Option UInt32)) (rel : Elf32_Rel) : Prop :=
  ∀ sym, Undetermined elf sections rel sym →
    importMessages header rel (elf.elf_strptr sections.dynsymLink sym.st_name) ≠ [] ∧
      ∀ s, checkRelocation stack findOrdinal elf sections header rel s = .ok s

end

section
variable {stack : Bytes} {findOrdinal : Option CString → CString → Except Stop (Option UInt32)} {elf : Elf}
variable {sections : RelocSections} {header : E32ImageHeader} {rel : Elf32_Rel} {rels : List Elf32_Rel}
variable {library : CString → CString → Option Elf} {libpath : List CString}

theorem checkImport_crashes {name dsoname dllname : Option CString}
    (hnames : (dsoname.bind fun d => dllname.map fun l => (d, l)) = none) (htype : rel.type ≠ R_ARM_NONE)
    (hin : InCode header rel.r_offset ∨ InData header rel.r_offset) (s : RelocState) :
    checkImport stack findOrdinal header rel name dsoname dllname s = .error .crashes := by
  unfold checkImport
  rw [if_pos htype]
  rcases dsoname with _ | dsoname
  · by_cases hcode : InCode header rel.r_offset
    · rw [if_pos hcode]
    · rw [if_neg hcode, if_pos (hin.resolve_left hcode)]
  · rcases dllname with _ | dllname
    · by_cases hcode : InCode header rel.r_offset
      · rw [if_pos hcode]
      · rw [if_neg hcode, if_pos (hin.resolve_left hcode)]
    · cases hnames

theorem checkImport_undetermined {name dsoname dllname : Option CString} {s s' : RelocState}
    (hnames : (dsoname.bind fun d => dllname.map fun l => (d, l)) = none)
    (h : checkImport stack findOrdinal header rel name dsoname dllname s = .ok s') :
    s' = s ∧ (rel.type ≠ R_ARM_NONE → ¬ InCode header rel.r_offset ∧ ¬ InData header rel.r_offset) := by
  by_cases htype : rel.type ≠ R_ARM_NONE
  · have hout : ¬ (InCode header rel.r_offset ∨ InData header rel.r_offset) := by
      intro hin
      rw [checkImport_crashes hnames htype hin] at h
      cases h
    obtain ⟨hcode, hdata⟩ := not_or.mp hout
    unfold checkImport at h
    rw [if_pos htype, if_neg hcode, if_neg hdata] at h
    exact ⟨(Except.ok.inj h).symm, fun _ => ⟨hcode, hdata⟩⟩
  · unfold checkImport at h
    rw [if_neg htype] at h
    exact ⟨(Except.ok.inj h).symm, fun hne => absurd hne htype⟩

theorem checkImport_outside {name dsoname dllname : Option CString} (s : RelocState)
    (hcode : ¬ InCode header rel.r_offset) (hdata : ¬ InData header rel.r_offset) :
    checkImport stack findOrdinal header rel name dsoname dllname s = .ok s := by
  unfold checkImport
  by_cases htype : rel.type ≠ R_ARM_NONE
  · rw [if_pos htype, if_neg hcode, if_neg hdata]
  · rw [if_neg htype]

theorem fixImportRelocationByName_ok_iff {offset : UInt32} {out : Bytes} {name : Option CString} {dsoname : CString} :
    (∃ out', fixImportRelocationByName stack findOrdinal offset out name dsoname = .ok out') ↔
      ∃ ordinal, findOrdinal name dsoname = .ok ordinal := by
  unfold fixImportRelocationByName
  cases findOrdinal name dsoname with
  | error stop => exact iff_of_false nofun nofun
  | ok ordinal =>
    cases ordinal with
    | none => exact iff_of_true ⟨out, rfl⟩ ⟨none, rfl⟩
    | some ordinal => exact iff_of_true ⟨_, rfl⟩ ⟨some ordinal, rfl⟩

/-- An import whose library is known asks for its ordinal, and for nothing else. -/
theorem checkImport_determined {name : Option CString} (dsoname dllname : CString) (s : RelocState) :
    (∃ s', checkImport stack findOrdinal header rel name (some dsoname) (some dllname) s = .ok s') ↔
      (rel.type ≠ R_ARM_NONE → InCode header rel.r_offset ∨ InData header rel.r_offset →
        ∃ ordinal, findOrdinal name dsoname = .ok ordinal) := by
  have hfix : ∀ offset addr, (∃ s', (fixImportRelocationByName stack findOrdinal offset s.out name dsoname >>= fun out =>
      .ok ({ s with out := out }.addImport dllname addr) : Except Stop RelocState) = .ok s') ↔
        ∃ ordinal, findOrdinal name dsoname = .ok ordinal := by
    intro offset addr
    rw [← @fixImportRelocationByName_ok_iff stack findOrdinal offset s.out]
    constructor
    · rintro ⟨s', h⟩
      obtain ⟨out, hout, -⟩ := bind_eq_ok.mp h
      exact ⟨out, hout⟩
    · rintro ⟨out, hout⟩
      exact ⟨_, bind_eq_ok.mpr ⟨out, hout, rfl⟩⟩
  unfold checkImport
  by_cases htype : rel.type ≠ R_ARM_NONE
  swap
  · rw [if_neg htype]
    exact iff_of_true ⟨s, rfl⟩ fun h => absurd h htype
  rw [if_pos htype]
  by_cases hcode : InCode header rel.r_offset
  · rw [if_pos hcode]
    exact (hfix _ _).trans ⟨fun h _ _ => h, fun h => h htype (.inl hcode)⟩
  rw [if_neg hcode]
  by_cases hdata : InData header rel.r_offset
  · rw [if_pos hdata]
    exact (hfix _ _).trans ⟨fun h _ _ => h, fun h => h htype (.inr hdata)⟩
  · rw [if_neg hdata]
    exact iff_of_true ⟨s, rfl⟩ fun _ hin => absurd hin (not_or.mpr ⟨hcode, hdata⟩)

theorem checkRelocation_defined {sym : Elf32_Sym} {index : UInt16} (hindex : sections.symver[rel.sym]? = some index)
    (hsym : sections.dynsyms[rel.sym]? = some sym) (hdef : sym.st_shndx ≠ 0) (s : RelocState) :
    checkRelocation stack findOrdinal elf sections header rel s = .ok (checkDefined stack header rel sym s) := by
  unfold checkRelocation
  simp only [hindex, hsym]
  exact if_pos hdef

/-- An entry against an undefined symbol: the names are looked up, and the import is made with them. -/
theorem checkRelocation_undefined {sym : Elf32_Sym} {index : UInt16} {s s' : RelocState}
    (hindex : sections.symver[rel.sym]? = some index) (hsym : sections.dynsyms[rel.sym]? = some sym)
    (hdef : sym.st_shndx = 0) :
    checkRelocation stack findOrdinal elf sections header rel s = .ok s' ↔ ∃ link dsoname dllname,
      sections.verneedLink = some link ∧
      getLibraryNames elf link sections.verneed sections.verneedNum index = .ok (dsoname, dllname) ∧
      checkImport stack findOrdinal header rel (elf.elf_strptr sections.dynsymLink sym.st_name) dsoname dllname s =
        .ok s' := by
  unfold checkRelocation
  simp only [hindex, hsym]
  rw [if_neg (not_not.mpr hdef)]
  cases hlink : sections.verneedLink with
  | none => exact ⟨nofun, fun ⟨_, _, _, h, _⟩ => absurd h.symm (Option.some_ne_none _)⟩
  | some link =>
    constructor
    · intro h
      obtain ⟨⟨dsoname, dllname⟩, hnames, hmade⟩ := bind_eq_ok.mp h
      exact ⟨link, dsoname, dllname, rfl, hnames, hmade⟩
    · rintro ⟨_, dsoname, dllname, ⟨⟩, hnames, hmade⟩
      exact bind_eq_ok.mpr ⟨(dsoname, dllname), hnames, hmade⟩

/-- An entry that leads outside of no table is handled, and is reported where it has no library. -/
theorem EntryInside.handled (stack : Bytes) (h : EntryInside elf sections header library libpath rel) (s : RelocState) :
    ∃ s', checkRelocation stack (searchOrdinal library libpath) elf sections header rel s = .ok s' := by
  have hindex := List.getElem?_eq_getElem h.version
  cases hsym : sections.dynsyms[rel.sym]? with
  | none =>
    unfold checkRelocation
    rw [hindex]
    simp only
    rw [hsym]
    exact ⟨s, rfl⟩
  | some sym =>
    by_cases hdef : sym.st_shndx ≠ 0
    · exact ⟨_, checkRelocation_defined hindex hsym hdef s⟩
    have hinside := h.needs sym _ hsym (not_not.mp hdef) hindex
    obtain ⟨link, hlink⟩ := Option.isSome_iff_exists.mp hinside.1
    obtain ⟨dsoname, dllname, hnames, hlib⟩ := getLibraryNames_ok elf hlink hinside
    have hmake : ∀ s', checkImport stack (searchOrdinal library libpath) header rel
        (elf.elf_strptr sections.dynsymLink sym.st_name) dsoname dllname s = .ok s' →
          ∃ s', checkRelocation stack (searchOrdinal library libpath) elf sections header rel s = .ok s' :=
      fun s' hmade => ⟨s', (checkRelocation_undefined hindex hsym (not_not.mp hdef)).mpr
        ⟨link, dsoname, dllname, hlink, hnames, hmade⟩⟩
    cases hboth : (dsoname.bind fun d => dllname.map fun l => (d, l)) with
    | none =>
      obtain ⟨-, hcode, hdata⟩ := h.outside sym ⟨hsym, not_not.mp hdef, fun index' hindex' => by
        rw [hindex] at hindex'
        cases hindex'
        rw [hlib, hboth]⟩
      exact hmake s (checkImport_outside s hcode hdata)
    | some both =>
      obtain ⟨d, rfl, hmap⟩ := Option.bind_eq_some_iff.mp hboth
      obtain ⟨l, rfl, -⟩ := Option.map_eq_some_iff.mp hmap
      have hlookup := h.lookup sym _ d l hsym (not_not.mp hdef) hindex hlib
      obtain ⟨s', hmade⟩ := (checkImport_determined d l s).mpr fun htype hin =>
        (searchOrdinal_ok_iff libpath).mpr (hlookup htype hin)
      exact hmake s' hmade

theorem names_of_ok {sym : Elf32_Sym} {index : UInt16} {s s' : RelocState}
    (hindex : sections.symver[rel.sym]? = some index) (hsym : sections.dynsyms[rel.sym]? = some sym)
    (hdef : sym.st_shndx = 0) (h : checkRelocation stack findOrdinal elf sections header rel s = .ok s') :
    VersionInside sections index ∧ ∃ dsoname dllname,
      libraryOf elf sections index = (dsoname.bind fun d => dllname.map fun l => (d, l)) ∧
      checkImport stack findOrdinal header rel (elf.elf_strptr sections.dynsymLink sym.st_name) dsoname dllname s =
        .ok s' := by
  obtain ⟨link, dsoname, dllname, hlink, hnames, hmade⟩ := (checkRelocation_undefined hindex hsym hdef).mp h
  have hinside := versionInside_of_ok hlink hnames
  obtain ⟨dsoname', dllname', hnames', hlib⟩ := getLibraryNames_ok elf hlink hinside
  obtain ⟨rfl, rfl⟩ := Prod.mk.inj (Except.ok.inj (hnames.symm.trans hnames'))
  exact ⟨hinside, dsoname, dllname, hlib, hmade⟩

theorem entryInside_of_handled {s s' : RelocState}
    (h : checkRelocation stack (searchOrdinal library libpath) elf sections header rel s = .ok s')
    (hreported : Reported elf sections header stack (searchOrdinal library libpath) rel) :
    EntryInside elf sections header library libpath rel := by
  have hversion : rel.sym < sections.symver.length := by
    by_contra hout
    have hnone : sections.symver[rel.sym]? = none := List.getElem?_eq_none (Nat.le_of_not_lt hout)
    unfold checkRelocation at h
    rw [hnone] at h
    cases h
  have hindex := List.getElem?_eq_getElem hversion
  refine ⟨hversion, fun sym index hsym hdef hindex' => (names_of_ok hindex' hsym hdef h).1, fun sym hundet => ?_,
    fun sym index d l hsym hdef hindex' hlibrary htype hin => ?_⟩
  swap
  · obtain ⟨-, dsoname, dllname, hlib, hmade⟩ := names_of_ok hindex' hsym hdef h
    obtain ⟨_, rfl, hmap⟩ := Option.bind_eq_some_iff.mp (hlib.symm.trans hlibrary)
    obtain ⟨_, rfl, heq⟩ := Option.map_eq_some_iff.mp hmap
    cases heq
    exact (searchOrdinal_ok_iff libpath).mp ((checkImport_determined d l s).mp ⟨s', hmade⟩ htype hin)
  obtain ⟨hsym, hdef, hnone⟩ := id hundet
  obtain ⟨-, dsoname, dllname, hlib, hmade⟩ := names_of_ok hindex hsym hdef h
  obtain ⟨hmessage, -⟩ := hreported sym hundet
  have htype : rel.type ≠ R_ARM_NONE := by
    intro hnone
    exact hmessage (if_neg (not_not.mpr hnone))
  exact ⟨htype, (checkImport_undetermined (hlib.symm.trans (hnone _ hindex)) hmade).2 htype⟩

theorem EntryInside.reported (h : EntryInside elf sections header library libpath rel) :
    Reported elf sections header stack (searchOrdinal library libpath) rel := by
  intro sym hundet
  obtain ⟨htype, hcode, hdata⟩ := h.outside sym hundet
  refine ⟨?_, fun s => ?_⟩
  · rw [importMessages, if_pos htype, if_neg hcode, if_neg hdata]
    simp
  · obtain ⟨s', hrun⟩ := h.handled stack s
    obtain ⟨hsym, hdef, hnone⟩ := hundet
    have hindex := List.getElem?_eq_getElem h.version
    obtain ⟨-, dsoname, dllname, hlib, hmade⟩ := names_of_ok hindex hsym hdef hrun
    rw [hrun, (checkImport_undetermined (hlib.symm.trans (hnone _ hindex)) hmade).1]

theorem checkRelocations_ok_iff (stack : Bytes) (s : RelocState) :
    ((∃ s', checkRelocations stack (searchOrdinal library libpath) elf sections header rels s = .ok s') ∧
      ∀ rel ∈ rels, Reported elf sections header stack (searchOrdinal library libpath) rel) ↔
      ∀ rel ∈ rels, EntryInside elf sections header library libpath rel := by
  refine foldlM_ok_iff (fun rel _ s => ⟨?_, fun h => ⟨h.handled stack s, h.reported⟩⟩) s
  rintro ⟨⟨s', hrun⟩, hreported⟩
  exact entryInside_of_handled hrun hreported

end

/-! ### All sections -/

section
variable (stack : Bytes) (findOrdinal : Option CString → CString → Except Stop (Option UInt32)) (elf : Elf)
variable (header : E32ImageHeader)

/-- `checkRelocations` of one section, with the tables that `main` has found: the data of the section, of the symbols
and of their versions is read through a pointer that may be null. -/
def checkSection (s : RelocState) (scn : Elf_Scn) : Except Stop RelocState :=
  match scn.data, findRelocSections elf with
  | .ELF_T_REL rels, some sections => checkRelocations stack findOrdinal elf sections header rels s
  | _, _ => .error .crashes

/-- The `REL` sections. -/
def relSections : List Elf_Scn := elf.sections.filter fun scn => scn.sh_type = SHT_REL

/-- The loop of `main` over the sections. -/
def relocateSections (s : RelocState) : Except Stop RelocState :=
  (relSections elf).foldlM (checkSection stack findOrdinal elf header) s

/-- The entries of a section, if it has data. -/
def entriesOf (scn : Elf_Scn) : Option (List Elf32_Rel) :=
  match scn.data with
  | .ELF_T_REL rels => some rels
  | _ => none

end

section
variable {stack : Bytes} {findOrdinal : Option CString → CString → Except Stop (Option UInt32)} {elf : Elf}
variable {header : E32ImageHeader}
variable {library : CString → CString → Option Elf} {libpath : List CString}

theorem checkSection_eq {scn : Elf_Scn} {rels : List Elf32_Rel} {sections : RelocSections}
    (hrels : entriesOf scn = some rels) (hs : findRelocSections elf = some sections) (s : RelocState) :
    checkSection stack findOrdinal elf header s scn =
      checkRelocations stack findOrdinal elf sections header rels s := by
  unfold entriesOf at hrels
  split at hrels
  · next d_buf hdata =>
    cases hrels
    unfold checkSection
    rw [hdata, hs]
  · cases hrels

theorem checkSection_ok {scn : Elf_Scn} {s s' : RelocState} (h : checkSection stack findOrdinal elf header s scn = .ok s') :
    (∃ rels, entriesOf scn = some rels) ∧ ∃ sections, findRelocSections elf = some sections := by
  unfold checkSection at h
  split at h
  · next rels sections hdata hs => exact ⟨⟨rels, by rw [entriesOf, hdata]⟩, sections, hs⟩
  · cases h

theorem foldlM_checkSection_iff {scns : List Elf_Scn} (s : RelocState) :
    ((∃ s', scns.foldlM (checkSection stack (searchOrdinal library libpath) elf header) s = .ok s') ∧
      ∀ scn ∈ scns, ∀ sections rels, findRelocSections elf = some sections → entriesOf scn = some rels →
        ∀ rel ∈ rels, Reported elf sections header stack (searchOrdinal library libpath) rel) ↔
      ∀ scn ∈ scns, ∃ sections rels, findRelocSections elf = some sections ∧ entriesOf scn = some rels ∧
        ∀ rel ∈ rels, EntryInside elf sections header library libpath rel := by
  refine foldlM_ok_iff (fun scn _ s => ⟨?_, ?_⟩) s
  · rintro ⟨⟨s', hrun⟩, hreported⟩
    obtain ⟨⟨rels, hrels⟩, sections, hs⟩ := checkSection_ok hrun
    rw [checkSection_eq hrels hs] at hrun
    exact ⟨sections, rels, hs, hrels, (checkRelocations_ok_iff stack s).mp ⟨⟨s', hrun⟩, hreported sections rels hs hrels⟩⟩
  · rintro ⟨sections, rels, hs, hrels, hentries⟩
    obtain ⟨hrun, hreported⟩ := (checkRelocations_ok_iff stack s).mpr hentries
    refine ⟨by rwa [checkSection_eq hrels hs], fun sections' rels' hs' hrels' => ?_⟩
    obtain rfl := Option.some.inj (hs.symm.trans hs')
    obtain rfl := Option.some.inj (hrels.symm.trans hrels')
    exact hreported

end

section
variable {stack : Bytes} {findOrdinal : Option CString → CString → Except Stop (Option UInt32)} {elf : Elf}
variable {header : E32ImageHeader}

theorem foldlM_checkSection_eq {sections : RelocSections} (hs : findRelocSections elf = some sections)
    {scns : List Elf_Scn} (hdata : ∀ scn ∈ scns, (entriesOf scn).isSome) (s : RelocState) :
    scns.foldlM (checkSection stack findOrdinal elf header) s =
      checkRelocations stack findOrdinal elf sections header (scns.flatMap fun scn => (entriesOf scn).getD []) s := by
  induction scns generalizing s with
  | nil => rfl
  | cons scn scns ih =>
    obtain ⟨rels, hrels⟩ := Option.isSome_iff_exists.mp (hdata scn List.mem_cons_self)
    rw [List.foldlM_cons, checkSection_eq hrels hs, List.flatMap_cons, hrels, Option.getD_some, checkRelocations,
      checkRelocations, List.foldlM_append]
    congr 1
    funext s'
    exact ih (fun scn' hscn' => hdata scn' (List.mem_cons_of_mem _ hscn')) s'

theorem relocationEntries_eq : relocationEntries elf = (relSections elf).flatMap fun scn => (entriesOf scn).getD [] := by
  unfold relocationEntries relSections
  induction elf.sections with
  | nil => rfl
  | cons scn scns ih =>
    rw [List.flatMap_cons, ih]
    by_cases htype : scn.sh_type = SHT_REL
    · rw [List.filter_cons_of_pos (by simpa using htype), List.flatMap_cons]
      congr 1
      unfold entriesOf
      cases scn.data with
      | ELF_T_REL rels => exact if_pos htype
      | _ => rfl
    · rw [List.filter_cons_of_neg (by simpa using htype)]
      cases scn.data with
      | ELF_T_REL rels =>
        dsimp only
        rw [if_neg htype, List.nil_append]
      | _ => rfl

/-- The run of `main`, where every `REL` section has its data. -/
theorem relocate_eq_relocateSections (env : Environment) (p : Prepared) (header : E32ImageHeader) (s : RelocState)
    (hdata : ∀ scn ∈ relSections p.elf, (entriesOf scn).isSome) :
    relocate env p header s = relocateSections env.stack (fun symbol lib => .ok (env.findOrdinal p.libpath symbol lib)) p.elf header s := by
  cases hs : findRelocSections p.elf with
  | some sections =>
    rw [relocate_eq header s hs, relocateSections, foldlM_checkSection_eq hs hdata, relocationEntries_eq]
  | none =>
    unfold relocate
    split
    · next hany =>
      obtain ⟨scn, hscn, htype⟩ := List.any_eq_true.mp hany
      have hmem : scn ∈ relSections p.elf := List.mem_filter.mpr ⟨hscn, htype⟩
      obtain ⟨first, rest, hfirst⟩ := List.exists_cons_of_ne_nil (List.ne_nil_of_mem hmem)
      have hcrash : checkSection env.stack (fun symbol lib => .ok (env.findOrdinal p.libpath symbol lib)) p.elf header s first = .error .crashes := by
        unfold checkSection
        rw [hs]
        cases first.data <;> rfl
      rw [hs, relocateSections, hfirst, List.foldlM_cons, hcrash]
      rfl
    · next hany =>
      have hnil : relSections p.elf = [] := List.filter_eq_nil_iff.mpr fun scn hscn htype =>
        hany (List.any_eq_true.mpr ⟨scn, hscn, htype⟩)
      rw [relocateSections, hnil]
      rfl

end

/-- **Tables of a run.**  The relocations use no table that was not found and read outside of none, and an import whose
library cannot be determined is reported and changes nothing, exactly when: where there is a `REL` section, each of them
has its data, the dynamic symbols and their versions were found, and each entry stays inside of the tables, those of the
libraries its symbol is looked for included. -/
theorem relocateSections_safe_iff (stack : Bytes) (library : CString → CString → Option Elf) (libpath : List CString)
    (elf : Elf) (header : E32ImageHeader) (s : RelocState) :
    ((∃ s', relocateSections stack (searchOrdinal library libpath) elf header s = .ok s') ∧
      ∀ scn ∈ relSections elf, ∀ sections rels, findRelocSections elf = some sections → entriesOf scn = some rels →
        ∀ rel ∈ rels, Reported elf sections header stack (searchOrdinal library libpath) rel) ↔
      ∀ scn ∈ relSections elf, ∃ sections rels, findRelocSections elf = some sections ∧ entriesOf scn = some rels ∧
        ∀ rel ∈ rels, EntryInside elf sections header library libpath rel :=
  foldlM_checkSection_iff s

theorem rawdata_none (d : Bytes) (h : none = some d) : d.length = UInt32.toNat 0 ∧ d ≠ [] :=
  absurd h.symm (Option.some_ne_none d)

/-- An executable without imports: symbols and an entry that needs none, but no versions. -/
def withoutImports : Elf where
  file := []
  e_entry := 0x8000
  phdrs := []
  sections := [
    ⟨arg ".dynsym", SHT_DYNSYM, 0, 0, 0, 0, .ELF_T_SYM [⟨0, 0, 0, 0, 0⟩], none, rawdata_none⟩,
    ⟨arg ".rel.dyn", SHT_REL, 0, 0, 0, 0, .ELF_T_REL [⟨0x8000, 0x17⟩], none, rawdata_none⟩]
  elf_strptr _ _ := none

/-- A file without a version section crashes the check. -/
theorem withoutImports_crashes :
    ¬ ∀ (stack : Bytes) (library : CString → CString → Option Elf) (libpath : List CString) (elf : Elf)
      (header : E32ImageHeader) (s : RelocState),
      (∃ s', relocateSections stack (searchOrdinal library libpath) elf header s = .ok s') ∧
        ∀ scn ∈ relSections elf, ∀ sections rels, findRelocSections elf = some sections → entriesOf scn = some rels →
          ∀ rel ∈ rels, Reported elf sections header stack (searchOrdinal library libpath) rel := by
  intro hall
  obtain ⟨⟨s', hrun⟩, -⟩ := hall [] (fun _ _ => none) [] withoutImports E32ImageHeader.cleared
    ⟨[], ImportList.empty, RelocationList.empty, RelocationList.empty⟩
  cases hrun

end GnuPoc.E32
