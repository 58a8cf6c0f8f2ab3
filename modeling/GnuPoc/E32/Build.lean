import GnuPoc.E32.Fixups

/-!
# GnuPoc.E32.Build — the parts of an image (`elf2e32.cpp`, `elftran.cpp`)

Both programs lay an image out in the same steps: the code sections at their addresses, the data, and
behind them the import section and the relocation sections.  The sizes are counted in the header while
the position comes from the file.  `out` is the file from its first byte; the header is put into its
first `CRCSIZE` bytes at the end.
-/

namespace GnuPoc.E32

open GnuPoc.Lib

/-- The file after `fseek(out, header.codeOffset, SEEK_SET)`: the gap is zero once something is written. -/
def emptyOut : Bytes := List.replicate CRCSIZE 0

/-- `ftell(out)` while the file is written in order, in the 32 bits of a header field. -/
def ftell (out : Bytes) : UInt32 := UInt32.ofNat out.length

/-- What has been written so far, and the header that counts it. -/
structure Image where
  out : Bytes
  header : E32ImageHeader

/-- The loop over the program headers; `elftran` also looks for the dynamic segment. -/
def readProgramHeaders (phdrs : List Elf32_Phdr) (header : E32ImageHeader) : E32ImageHeader :=
  phdrs.foldl (fun header phdr =>
    if phdr.p_type = PT_LOAD ∧ phdr.p_flags &&& (PF_R ||| PF_X) = PF_R ||| PF_X then
      { header with codeBase := phdr.p_vaddr }
    else if phdr.p_type = PT_LOAD ∧ phdr.p_flags &&& (PF_R ||| PF_W) = PF_R ||| PF_W then
      { header with dataBase := phdr.p_vaddr, bssSize := (phdr.p_memsz - phdr.p_filesz).toInt32 }
    else header) header

/-- `codeSize` and `textSize` grow together. -/
def E32ImageHeader.addCode (header : E32ImageHeader) (n : UInt32) : E32ImageHeader :=
  { header with
    codeSize := (header.codeSize.toUInt32 + n).toInt32
    textSize := (header.textSize.toUInt32 + n).toInt32 }

/-- The loop that pads the code with zeros. -/
def Image.padCode (i : Image) (pad : UInt32) : Image :=
  ⟨i.out ++ List.replicate pad.toNat 0, i.header.addCode pad⟩

def isNamed (s : Elf_Scn) (name : String) : Bool := s.name.chars = chars name

/-- The sections that the code loop does not skip by flag or name. -/
def isCode (s : Elf_Scn) : Bool :=
  s.sh_flags &&& SHF_ALLOC ≠ 0 ∧ !(isNamed s ".data" || isNamed s "ER_RW" || isNamed s "ER_ZI")

def isData (s : Elf_Scn) : Bool := isNamed s ".data" || isNamed s "ER_RW"

/-- The body of the code loop. -/
def writeCodeSection (i : Image) (s : Elf_Scn) : Image :=
  match s.rawdata with
  | none => i
  | some d_buf =>
    if isCode s then
      let here := i.header.codeBase + i.header.codeSize.toUInt32
      let i := if here < s.sh_addr then i.padCode (s.sh_addr - here) else i
      ⟨i.out ++ d_buf, i.header.addCode s.sh_size⟩
    else i

/-- The code loop, and the padding behind it. -/
def writeCode (sections : List Elf_Scn) (i : Image) : Image :=
  let i := sections.foldl writeCodeSection i
  i.padCode (padding i.header.codeSize.toUInt32)

/-- The body of the data loop. -/
def writeDataSection (i : Image) (s : Elf_Scn) : Image :=
  match s.rawdata with
  | none => i
  | some d_buf =>
    if isData s then
      ⟨i.out ++ d_buf, { i.header with
        dataOffset := ftell i.out
        dataSize := (i.header.dataSize.toUInt32 + s.sh_size).toInt32 }⟩
    else i

/-- The data loop, the padding, which is not counted, and `importOffset`. -/
def writeData (sections : List Elf_Scn) (i : Image) : Image :=
  let i := sections.foldl writeDataSection i
  let out := i.out ++ List.replicate (padding i.header.dataSize.toUInt32).toNat 0
  ⟨out, { i.header with importOffset := ftell out }⟩

/-- How `importList.write` and `relocationList.write` sort. -/
structure Sorts where
  libraries : StdSort Library.compare
  relocations : StdSort Relocation.lt

/-- The import section and the relocation sections, from `importOffset` on; the last is written only if
it has entries. -/
def writeTables (sorts : Sorts) (doSort padsize : Bool) (header : E32ImageHeader) (s : RelocState) : Image × UInt32 :=
  let header := { header with dllRefTableCount := Int32.ofNat s.importList.numLibraries }
  let imports := s.importList.write sorts.libraries doSort padsize
  let pos := header.importOffset.toNat + imports.length
  let out := writeAt s.out header.importOffset.toNat imports
  let header := { header with codeRelocOffset := UInt32.ofNat pos }
  let relocations := s.relocationList.write sorts.relocations header
  let out := writeAt out pos relocations
  let pos := pos + relocations.length
  if s.dataRelocationList.count ≠ 0 then
    let header := { header with dataRelocOffset := UInt32.ofNat pos }
    let dataRelocations := s.dataRelocationList.write sorts.relocations header
    (⟨writeAt out pos dataRelocations, header⟩, UInt32.ofNat (pos + dataRelocations.length) - header.codeOffset)
  else (⟨out, header⟩, UInt32.ofNat pos - header.codeOffset)

/-- The header fields that both `main`s set in the same way before they look at the options. -/
def initialHeader (toolsVersion : UInt32) (timestamp : UInt64) (flags : UInt32) (cpuIdentifier : UInt16) :
    E32ImageHeader :=
  { E32ImageHeader.cleared with
    signature := 0x434f5045
    moduleVersion := (10 : UInt32) <<< 16
    compressionType := KUidCompressionDeflate
    toolsVersion := toolsVersion
    timeLo := timestamp.toUInt32
    timeHi := (timestamp >>> 32).toUInt32
    flags := flags
    heapSizeMin := 0x00001000
    heapSizeMax := 0x00100000
    stackSize := 0x00002000
    codeOffset := UInt32.ofNat CRCSIZE
    processPriority := EPriorityForeground
    cpuIdentifier := cpuIdentifier }

def initialHeaders (header : E32ImageHeader) (exportDescType : UInt8) : Headers :=
  ⟨header, ⟨0⟩, ⟨0, 0, 0, 0, 0, 0, 0, exportDescType, 0⟩⟩

/-- `major | (minor<<8) | (build<<16)`. -/
def toolsVersionOf (major minor build : UInt32) : UInt32 := major ||| minor <<< 8 ||| build <<< 16

end GnuPoc.E32
