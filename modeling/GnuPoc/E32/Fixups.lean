import GnuPoc.E32.ImportList
import GnuPoc.E32.RelocationList
import GnuPoc.E32.TranOptions
import GnuPoc.Lib.Memory

/-!
# GnuPoc.E32.Fixups — relocations of an ELF file (`checkRelocations`)

Every entry of a `REL` section is looked up in the dynamic symbols.  One against a defined symbol is
patched in the file and entered in a relocation list; one against an undefined symbol gets its ordinal
from an import library and is entered in the import list.
-/

namespace GnuPoc.E32

open GnuPoc.Lib

/-!
### An ELF file through libelf (`elfutils.cpp`)

The sections behind the null section with their headers and data, the program headers, `elf_strptr`, and
the bytes of the file for `elf_getdata_rawchunk`.  libelf hands out the data of a section of the file's size,
translated by its type.  The version needs are kept as the bytes `getLibraryName` walks; a read outside them
stops the model.
-/

structure Elf32_Sym where
  st_name : UInt32
  st_value : UInt32
  st_size : UInt32
  st_info : UInt8
  st_shndx : UInt16
  deriving DecidableEq

structure Elf32_Rel where
  r_offset : UInt32
  r_info : UInt32
  deriving DecidableEq

/-- `ELF32_R_TYPE` and `ELF32_R_SYM`. -/
def Elf32_Rel.type (r : Elf32_Rel) : UInt32 := r.r_info &&& 0xff
def Elf32_Rel.sym (r : Elf32_Rel) : ℕ := (r.r_info >>> 8).toNat

structure Elf32_Dyn where
  d_tag : UInt32
  d_val : UInt32
  deriving DecidableEq

structure Elf32_Phdr where
  p_type : UInt32
  p_offset : UInt32
  p_vaddr : UInt32
  p_filesz : UInt32
  p_memsz : UInt32
  p_flags : UInt32
  deriving DecidableEq

/-- `elf_getdata`, by the type of the section. -/
inductive ScnData
  | ELF_T_REL (d_buf : List Elf32_Rel)
  | ELF_T_SYM (d_buf : List Elf32_Sym)
  | ELF_T_HALF (d_buf : List UInt16)
  | ELF_T_VNEED (d_buf : Bytes)
  | ELF_T_DYN (d_buf : List Elf32_Dyn)
  | other
  deriving DecidableEq

/-- `elf_rawdata` is `none` where there are no bytes; otherwise it has the size of the header. -/
structure Elf_Scn where
  name : CString
  sh_type : UInt32
  sh_flags : UInt32
  sh_addr : UInt32
  sh_size : UInt32
  sh_link : UInt32
  data : ScnData
  rawdata : Option Bytes
  rawdata_size : ∀ d, rawdata = some d → d.length = sh_size.toNat ∧ d ≠ []

structure Elf where
  file : Bytes
  e_entry : UInt32
  phdrs : List Elf32_Phdr
  sections : List Elf_Scn
  elf_strptr : UInt32 → UInt32 → Option CString

inductive Elf_Type
  | ELF_T_BYTE
  | ELF_T_DYN
  | ELF_T_REL
  | ELF_T_SYM

/-- A chunk of `d_size` bytes, with the memory behind it. -/
structure Elf_Data where
  d_buf : Bytes
  behind : Memory

def Elf_Data.memory (data : Elf_Data) : Memory := data.d_buf.map some ++ data.behind

def Elf.Inside (elf : Elf) (offset size : UInt32) : Prop := offset.toNat + size.toNat ≤ elf.file.length

/-- `elf_getdata_rawchunk`: a chunk inside of a little-endian file is handed out as it stands there. -/
structure Libelf where
  elf_getdata_rawchunk : Elf → UInt32 → UInt32 → Elf_Type → Option Elf_Data
  inside : ∀ elf offset size type, elf.Inside offset size → ∃ behind,
    elf_getdata_rawchunk elf offset size type = some ⟨readAt elf.file offset.toNat size.toNat, behind⟩

def SHT_SYMTAB : UInt32 := 2
def SHT_DYNAMIC : UInt32 := 6
def SHT_REL : UInt32 := 9
def SHT_DYNSYM : UInt32 := 11
def SHT_GNU_verneed : UInt32 := 0x6ffffffe
def SHT_GNU_versym : UInt32 := 0x6fffffff
def SHF_ALLOC : UInt32 := 2
def PT_LOAD : UInt32 := 1
def PT_DYNAMIC : UInt32 := 2
def PF_X : UInt32 := 1
def PF_W : UInt32 := 2
def PF_R : UInt32 := 4
def DT_VERNEEDNUM : UInt32 := 0x6fffffff
def R_ARM_NONE : UInt32 := 0
def R_ARM_ABS32 : UInt32 := 2
def R_ARM_RELATIVE : UInt32 := 23
def R_ARM_RABS22 : UInt32 := 253

/-- `findSection`: the first section of a type. -/
def findSection (elf : Elf) (type : UInt32) : Option Elf_Scn := elf.sections.find? fun s => s.sh_type = type

/-- `findSymbol` by section type: the value of the first symbol of a name. -/
def findSymbol (elf : Elf) (symbol : Bytes) : Option UInt32 := do
  let scn ← findSection elf SHT_SYMTAB
  match scn.data with
  | .ELF_T_SYM d_buf =>
    (d_buf.find? fun sym =>
      ((elf.elf_strptr scn.sh_link sym.st_name).map fun name => name.chars) = some symbol).map Elf32_Sym.st_value
  | _ => none

/-- `getDynamicValue`. -/
def getDynamicValue (elf : Elf) (tag : UInt32) : Option UInt32 := do
  let scn ← findSection elf SHT_DYNAMIC
  match scn.data with
  | .ELF_T_DYN d_buf => (d_buf.find? fun dyn => dyn.d_tag = tag).map Elf32_Dyn.d_val
  | _ => none

/-! ### Version needs -/

/-- A field of a structure in memory. -/
def fieldAt (size : ℕ) (data : Bytes) (pos : ℕ) : Except Stop ℕ :=
  if pos + size ≤ data.length then .ok (ofLE (readAt data pos size)) else .error .crashes

/-- `vn_file`, `vn_aux` and `vn_next` of an `Elf32_Verneed`. -/
def vn_file (data : Bytes) (need : ℕ) : Except Stop ℕ := fieldAt 4 data (need + 4)
def vn_aux (data : Bytes) (need : ℕ) : Except Stop ℕ := fieldAt 4 data (need + 8)
def vn_next (data : Bytes) (need : ℕ) : Except Stop ℕ := fieldAt 4 data (need + 12)

/-- `vna_other`, `vna_name` and `vna_next` of an `Elf32_Vernaux`. -/
def vna_other (data : Bytes) (aux : ℕ) : Except Stop ℕ := fieldAt 2 data (aux + 6)
def vna_name (data : Bytes) (aux : ℕ) : Except Stop ℕ := fieldAt 4 data (aux + 8)
def vna_next (data : Bytes) (aux : ℕ) : Except Stop ℕ := fieldAt 4 data (aux + 12)

/-- The loop of `getLibraryName`; the count is what `i` has left. -/
def getLibraryNameFrom (verneed : Bytes) (index : UInt16) : ℕ → ℕ → Except Stop (Option (ℕ × ℕ))
  | 0, _ => .ok none
  | n + 1, need =>
    if need < verneed.length then do
      let aux := need + (← vn_aux verneed need)
      if (← vna_other verneed aux) = index.toNat then return some (need, aux)
      else getLibraryNameFrom verneed index n (need + (← vn_next verneed need))
    else .ok none

/-- `getLibraryName`; `none` is a section without data. -/
def getLibraryName (verneed : Option Bytes) (verneedNum : UInt32) (index : UInt16) :
    Except Stop (Option (ℕ × ℕ)) :=
  match verneed with
  | none => .ok none
  | some d_buf => getLibraryNameFrom d_buf index verneedNum.toNat 0

/-- `getDsoName` and `getDllName` in one: the names of the file and of the version. -/
def getLibraryNames (elf : Elf) (stringSection : UInt32) (verneed : Option Bytes) (verneedNum : UInt32)
    (index : UInt16) : Except Stop (Option CString × Option CString) := do
  match ← getLibraryName verneed verneedNum index with
  | none => return (none, none)
  | some (need, aux) =>
    let d_buf := verneed.getD []
    return (elf.elf_strptr stringSection (UInt32.ofNat (← vn_file d_buf need)),
      elf.elf_strptr stringSection (UInt32.ofNat (← vna_name d_buf aux)))

/-! ### Patching a word -/

/-- `fread(origBuf, 1, 4, out)` over what the buffer held: at the end of the file that stays. -/
def readWord (stack out : Bytes) (offset : ℕ) : UInt32 :=
  let origBuf := readAt out offset 4
  UInt32.ofNat (ofLE (origBuf ++ (stack.drop origBuf.length).take (4 - origBuf.length)))

/-- `fixRelocation`: the new value, and the file. -/
def fixRelocation (stack : Bytes) (offset : UInt32) (out : Bytes) (value : UInt32) : UInt32 × Bytes :=
  let value := value + readWord stack out offset.toNat
  (value, writeAt out offset.toNat (writeUint32 value))

/-- `fixImportRelocation(offset, out, ordinal)`. -/
def fixImportRelocation (stack : Bytes) (offset : UInt32) (out : Bytes) (ordinal : UInt32) : Bytes :=
  writeAt out offset.toNat (writeUint32 (ordinal + readWord stack out offset.toNat <<< 16))

/-- `fixImportRelocation` by name: `findOrdinal` is what the first library in the search path that can be
opened and has the symbol gives for it; the search itself may stop. -/
def fixImportRelocationByName (stack : Bytes) (findOrdinal : Option CString → CString → Except Stop (Option UInt32))
    (offset : UInt32) (out : Bytes) (symbol : Option CString) (lib : CString) : Except Stop Bytes := do
  match ← findOrdinal symbol lib with
  | some ordinal => return fixImportRelocation stack offset out ordinal
  | none => return out

/-! ### Import libraries -/

def SHT_PROGBITS : UInt32 := 1

/-- The loop of `findSymbol` over a table; a null name is passed over, and one to look for is compared. -/
def findSymbolFrom (elf : Elf) (sh_link : UInt32) (symbolName : Option CString) :
    List Elf32_Sym → Except Stop (Option Elf32_Sym)
  | [] => .ok none
  | sym :: rest =>
    match elf.elf_strptr sh_link sym.st_name, symbolName with
    | none, _ => findSymbolFrom elf sh_link symbolName rest
    | some _, none => .error .crashes
    | some name, some symbol =>
      if name.chars = symbol.chars then .ok (some sym) else findSymbolFrom elf sh_link symbolName rest

/-- The word of a section at `addr`, of which only the first byte is looked for. -/
def readOrdinal (progbits : Elf_Scn) (addr : UInt32) : Except Stop (Option UInt32) :=
  match progbits.rawdata with
  | none => if progbits.sh_size = 0 then .ok none else .error .crashes
  | some data =>
    if data.length ≤ addr.toNat then .ok none
    else if addr.toNat + 4 ≤ data.length then .ok (some (UInt32.ofNat (ofLE (readAt data addr.toNat 4))))
    else .error .crashes

/-- The dynamic symbols of a library, with the section of their names. -/
def dynsymTable (elf : Elf) : Option (UInt32 × List Elf32_Sym) :=
  (findSection elf SHT_DYNSYM).bind fun scn =>
    match scn.data with
    | .ELF_T_SYM d_buf => some (scn.sh_link, d_buf)
    | _ => none

/-- The ordinal that stands where a symbol points to. -/
def ordinalAt (elf : Elf) : Option Elf32_Sym → Except Stop (Option UInt32)
  | none => .ok none
  | some sym =>
    match findSection elf SHT_PROGBITS with
    | none => .ok none
    | some progbits => readOrdinal progbits (sym.st_value - progbits.sh_addr)

/-- The ordinal that `fixImportRelocation` finds in a library. -/
def ordinalOf (elf : Elf) (symbol : Option CString) : Except Stop (Option UInt32) :=
  match dynsymTable elf with
  | none => .ok none
  | some (sh_link, d_buf) => do ordinalAt elf (← findSymbolFrom elf sh_link symbol d_buf)

/-- `fixImportRelocation` over the search path.  `library` is the file that can be opened in a directory under the name,
in lower case, or as `findCaseInsensitive` finds it; its path is put together in a buffer of 1000 bytes. -/
def searchOrdinal (library : CString → CString → Option Elf) :
    List CString → Option CString → CString → Except Stop (Option UInt32)
  | [], _, _ => .ok none
  | dir :: libpath, symbol, lib =>
    if dir.chars.length + 1 + lib.chars.length < 1000 then
      match library dir lib with
      | none => searchOrdinal library libpath symbol lib
      | some elf => do
        match ← ordinalOf elf symbol with
        | some ordinal => return some ordinal
        | none => searchOrdinal library libpath symbol lib
    else .error .crashes

/-! ### `checkRelocations` -/

/-- The tests of a relocated address against the code and against the data with the `bss`. -/
def InCode (header : E32ImageHeader) (r_offset : UInt32) : Prop :=
  header.codeBase ≤ r_offset ∧ r_offset < header.codeBase + header.codeSize.toUInt32

def InData (header : E32ImageHeader) (r_offset : UInt32) : Prop :=
  header.dataBase ≤ r_offset ∧
    r_offset < header.dataBase + header.dataSize.toUInt32 + header.bssSize.toUInt32

instance decidableInCode (header : E32ImageHeader) (r_offset : UInt32) : Decidable (InCode header r_offset) :=
  inferInstanceAs (Decidable (_ ∧ _))

instance decidableInData (header : E32ImageHeader) (r_offset : UInt32) : Decidable (InData header r_offset) :=
  inferInstanceAs (Decidable (_ ∧ _))

/-- `RelocSections`, with the data `checkRelocations` fetches; `verneedLink` is `none` without a section
of version needs, whose header is then read through a null pointer. -/
structure RelocSections where
  dynsyms : List Elf32_Sym
  dynsymLink : UInt32
  symver : List UInt16
  verneed : Option Bytes
  verneedLink : Option UInt32
  verneedNum : UInt32

/-- The file and the three global lists. -/
structure RelocState where
  out : Bytes
  importList : ImportList
  relocationList : RelocationList
  dataRelocationList : RelocationList

namespace RelocState

def addRelocation (s : RelocState) (offset value : UInt32) : RelocState :=
  { s with relocationList := s.relocationList.addRelocation ⟨offset, value⟩ }

def addDataRelocation (s : RelocState) (offset value : UInt32) : RelocState :=
  { s with dataRelocationList := s.dataRelocationList.addRelocation ⟨offset, value⟩ }

def addImport (s : RelocState) (libname : CString) (addr : UInt32) : RelocState :=
  { s with importList := s.importList.addImport ⟨libname, addr⟩ }

end RelocState

section
variable (stack : Bytes) (findOrdinal : Option CString → CString → Except Stop (Option UInt32))
variable (elf : Elf) (sections : RelocSections) (header : E32ImageHeader)

/-- An entry against a defined symbol. -/
def checkDefined (rel : Elf32_Rel) (sym : Elf32_Sym) (s : RelocState) : RelocState :=
  let fix (offset : UInt32) : Bytes :=
    if rel.type ≠ R_ARM_RELATIVE then (fixRelocation stack offset s.out sym.st_value).2 else s.out
  if InCode header rel.r_offset then
    { s with out := fix (rel.r_offset - header.codeBase + header.codeOffset) }.addRelocation
      (rel.r_offset - header.codeBase) sym.st_value
  else if InData header rel.r_offset then
    { s with out := fix (rel.r_offset - header.dataBase + header.dataOffset) }.addDataRelocation
      (rel.r_offset - header.dataBase) sym.st_value
  else s

/-- An entry against an undefined symbol, between the names of its version need. -/
def checkImport (rel : Elf32_Rel) (name dsoname dllname : Option CString) (s : RelocState) :
    Except Stop RelocState :=
  let fix (offset addr : UInt32) : Except Stop RelocState :=
    match dsoname, dllname with
    | some dsoname, some dllname => do
      let out ← fixImportRelocationByName stack findOrdinal offset s.out name dsoname
      return { s with out := out }.addImport dllname addr
    -- a null name is compared and copied
    | _, _ => .error .crashes
  if rel.type ≠ R_ARM_NONE then
    if InCode header rel.r_offset then
      fix (rel.r_offset - header.codeBase + header.codeOffset) (rel.r_offset - header.codeBase)
    else if InData header rel.r_offset then
      fix (rel.r_offset - header.dataBase + header.dataOffset) (rel.r_offset - header.dataBase)
    else .ok s
  else .ok s

/-- The body of the loop of `checkRelocations`. -/
def checkRelocation (rel : Elf32_Rel) (s : RelocState) : Except Stop RelocState :=
  match sections.symver[rel.sym]? with
  -- read outside the table, before the index is tested
  | none => .error .crashes
  | some verIndex =>
    match sections.dynsyms[rel.sym]? with
    | none => .ok s
    | some sym =>
      if sym.st_shndx ≠ 0 then .ok (checkDefined stack header rel sym s)
      else
        match sections.verneedLink with
        | none => .error .crashes
        | some link => do
          let (dsoname, dllname) ← getLibraryNames elf link sections.verneed sections.verneedNum verIndex
          checkImport stack findOrdinal header rel (elf.elf_strptr sections.dynsymLink sym.st_name) dsoname
            dllname s

/-- `checkRelocations` over the entries of one section or of all sections in a row. -/
def checkRelocations (rels : List Elf32_Rel) (s : RelocState) : Except Stop RelocState :=
  rels.foldlM (fun s rel => checkRelocation stack findOrdinal elf sections header rel s) s

end

end GnuPoc.E32
