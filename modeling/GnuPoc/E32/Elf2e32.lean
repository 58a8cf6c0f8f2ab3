import GnuPoc.E32.Build
import GnuPoc.Elf.DefFile

/-!
# GnuPoc.E32.Elf2e32 — `main` of elf2e32

The options come from `getopt_long`, one result at a time.  The `.def` file and the import library that a
run can write on the way are the subject of `Elf.DefFile` and `Elf.Dso`; a run here is what it writes to
`output`.
-/

namespace GnuPoc.E32

open GnuPoc.Lib
open GnuPoc.Elf (ExportList ElfSymbol parseDefFile parseSysDef)

def EPOC_VERSION_9_3 : ℕ := 0x903
def EPOC_VERSION_9_4 : ℕ := 0x904

/-! ### Options -/

/-- What `getopt_long` returns for an entry of `long_options`, with `optarg`; `unhandled` is an option that
`main` only warns about, `invalid` any result other than 0. -/
inductive LongOption
  | definput (optarg : CString) | defoutput (optarg : CString) | elfinput (optarg : CString)
  | output (optarg : CString) | dso (optarg : CString) | targettype (optarg : CString)
  | linkas (optarg : CString) | uid1 (optarg : CString) | uid2 (optarg : CString) | uid3 (optarg : CString)
  | sid (optarg : CString) | vid (optarg : CString) | fixedaddress | uncompressed
  | compressionmethod (optarg : CString) | heap (optarg : CString) | stack (optarg : CString) | unfrozen
  | noexportlibrary | capability (optarg : CString) | libpath (optarg : CString) | sysdef (optarg : CString)
  | dlldata | version (optarg : CString) | callentry | fpu (optarg : CString)
  | codepaging (optarg : CString) | datapaging (optarg : CString) | paged | unpaged | defaultpaged | smpsafe
  | unhandled | invalid

/-- The variables that the options set. -/
structure Elf2e32Options where
  headers : Headers
  exportList : ExportList
  output : Option CString
  elfinput : Option CString
  libpath : List CString
  defoutput : Option CString
  dso : Option CString
  linkas : Option CString
  noexportlibrary : Bool

namespace Elf2e32Options

def setHeader (s : Elf2e32Options) (header : E32ImageHeader) : Elf2e32Options :=
  { s with headers := { s.headers with header := header } }

def setHeaderV (s : Elf2e32Options) (headerV : E32ImageHeaderV) : Elf2e32Options :=
  { s with headers := { s.headers with headerV := headerV } }

def setFlags (s : Elf2e32Options) (flags : UInt32) : Elf2e32Options :=
  s.setHeader { s.headers.header with flags := flags }

def setCaps (s : Elf2e32Options) (caps : Caps) : Elf2e32Options :=
  s.setHeaderV { s.headers.headerV with caps0 := caps.caps0, caps1 := caps.caps1 }

end Elf2e32Options

/-- `--heap`: the buffers hold 49 characters. -/
def setHeap (optarg : CString) (header : E32ImageHeader) : E32ImageHeader :=
  let buf1 := optarg.chars.take 49
  let number (s : Bytes) : Int32 := (UInt32.ofNat (strtoul s)).toInt32
  match strchr 44 buf1 with
  | some ptr => { header with
      heapSizeMin := number (buf1.takeWhile (· ≠ 44)), heapSizeMax := number (ptr.tail.take 49) }
  | none => { header with heapSizeMin := number buf1 }

/-- The body of the `getopt_long` loop; `files` are the `.def` files that can be opened. -/
def longOption (files : CString → Option Bytes) (s : Elf2e32Options) (o : LongOption) : Except Stop Elf2e32Options :=
  let header := s.headers.header
  let headerV := s.headers.headerV
  match o with
  | .sid optarg => .ok (s.setHeaderV { headerV with secureId := strtoul32 optarg })
  | .uid1 optarg => .ok (s.setHeader { header with uid1 := strtoul32 optarg })
  | .uid2 optarg => .ok (s.setHeader { header with uid2 := strtoul32 optarg })
  | .uid3 optarg => .ok (s.setHeader { header with uid3 := strtoul32 optarg })
  | .vid optarg => .ok (s.setHeaderV { headerV with vendorId := strtoul32 optarg })
  | .capability optarg => .ok (s.setCaps (getCapabilities optarg ⟨headerV.caps0, headerV.caps1⟩))
  | .fpu optarg =>
    let flags := header.flags &&& ~~~KImageHWFloatMask
    if equals optarg "softvfp" then .ok (s.setFlags flags)
    else if equals optarg "vfpv2" then .ok (s.setFlags (flags ||| KImageHWFloat_VFPv2))
    else .error (.returns 1)
  | .targettype optarg =>
    if stricmp optarg.chars (chars "EXE") = 0 then .ok s
    else if stricmp optarg.chars (chars "PLUGIN") = 0 ∨ stricmp optarg.chars (chars "DLL") = 0 then
      .ok (s.setFlags (header.flags ||| (KImageDll ||| KImageOldJFlag)))
    else .ok s
  | .output optarg => .ok { s with output := some optarg }
  | .elfinput optarg => .ok { s with elfinput := some optarg }
  | .linkas optarg => .ok { s with linkas := some optarg }
  | .libpath optarg => .ok { s with libpath := s.libpath ++ [optarg] }
  | .heap optarg => .ok (s.setHeader (setHeap optarg header))
  | .stack optarg => .ok (s.setHeader { header with stackSize := (strtoul32 optarg).toInt32 })
  | .defoutput optarg => .ok { s with defoutput := some optarg }
  | .sysdef optarg => .ok { s with exportList := parseSysDef optarg.chars s.exportList }
  | .definput optarg =>
    match files optarg with
    | some file => .ok { s with exportList := parseDefFile file s.exportList }
    | none => .error .crashes
  | .dso optarg => .ok { s with dso := some optarg }
  | .uncompressed => .ok (s.setHeader { header with compressionType := 0 })
  | .compressionmethod optarg =>
    if equals optarg "none" then .ok (s.setHeader { header with compressionType := 0 })
    else if equals optarg "inflate" then
      .ok (s.setHeader { header with compressionType := KUidCompressionDeflate })
    else .ok s
  | .noexportlibrary => .ok { s with noexportlibrary := true }
  | .version optarg => .ok (s.setHeader { header with moduleVersion := moduleVersionOf optarg })
  | .paged => .ok (s.setFlags (header.flags ||| KImagePaged))
  | .unpaged => .ok (s.setFlags (header.flags ||| KImageUnpaged))
  | .defaultpaged => .ok (s.setFlags (header.flags &&& ~~~(KImageUnpaged ||| KImagePaged)))
  | .codepaging optarg => .ok (s.setFlags (setPaging optarg KImagePaged KImageUnpaged header.flags))
  | .datapaging optarg => .ok (s.setFlags (setPaging optarg KImageDataPaged KImageDataUnpaged header.flags))
  | .smpsafe => .ok (s.setFlags (header.flags ||| KImageSMPSafe))
  | .fixedaddress | .dlldata | .unfrozen | .callentry | .unhandled => .ok s
  | .invalid => .error (.returns 1)

/-! ### `main` -/

/-- The symbols `findExports` takes. -/
def isExported (name : CString) (sym : Elf32_Sym) : Bool :=
  sym.st_info >>> 4 = 1 ∧ (sym.st_info &&& 0xf = 2 ∨ sym.st_info &&& 0xf = 1) ∧ sym.st_value ≠ 0 ∧
    !(chars "_ZTS").isPrefixOf name.chars

/-- `findExports`. -/
def findExports (elf : Elf) (l : ExportList) : ExportList :=
  match findSection elf SHT_DYNSYM with
  | some ⟨_, _, _, _, _, sh_link, .ELF_T_SYM d_buf, _, _⟩ =>
    d_buf.foldl (fun l sym =>
      match elf.elf_strptr sh_link sym.st_name with
      | some name =>
        if isExported name sym then
          l.addExport ⟨name, sym.st_value, sym.st_info &&& 0xf = 2, (sym.st_size.toInt32).toInt⟩
        else l
      | none => l) l
  | _ => l

/-- The loop of `ExportList::write`. -/
def writeExport (codeOffset : UInt32) (s : Bytes × RelocationList) (e : Elf.Export) : Bytes × RelocationList :=
  (s.1 ++ writeUint32 e.address, s.2.addRelocation ⟨ftell s.1 - codeOffset, e.address⟩)

/-- The part of `main` that writes the export table behind the code. -/
def writeExports (l : ExportList) (i : Image) : Image × RelocationList :=
  if l.exports.length = 0 then (i, RelocationList.empty)
  else
    let start := ftell i.out
    let header := { i.header with
      exportDirOffset := ftell i.out + 4
      exportDirCount := Int32.ofNat l.exports.length }
    let (out, relocations) := l.exports.foldl (writeExport header.codeOffset)
      (i.out ++ writeUint32 (UInt32.ofNat l.exports.length), RelocationList.empty)
    (⟨out, header.addCode (ftell out - start)⟩, relocations)

/-- The relocation entries of all `REL` sections, in the order `main` checks them. -/
def relocationEntries (elf : Elf) : List Elf32_Rel :=
  elf.sections.flatMap fun s =>
    match s.data with
    | .ELF_T_REL d_buf => if s.sh_type = SHT_REL then d_buf else []
    | _ => []

/-- `relocSections`; without dynamic symbols or their versions `checkRelocations` reads null pointers. -/
def findRelocSections (elf : Elf) : Option RelocSections := do
  let dynsym ← findSection elf SHT_DYNSYM
  let symver ← findSection elf SHT_GNU_versym
  match dynsym.data, symver.data with
  | .ELF_T_SYM dynsyms, .ELF_T_HALF ver =>
    let verneed := findSection elf SHT_GNU_verneed
    return {
      dynsyms := dynsyms
      dynsymLink := dynsym.sh_link
      symver := ver
      verneed := verneed.bind fun s => match s.data with
        | .ELF_T_VNEED d_buf => some d_buf
        | _ => none
      verneedLink := verneed.map Elf_Scn.sh_link
      verneedNum := (getDynamicValue elf DT_VERNEEDNUM).getD 0 }
  | _, _ => none

/-- What a run finds outside the program: the `.def` files and ELF files by name, the ordinals of the
libraries that are linked to, the version of the SDK, the time, what the stack happens to hold, how
`std::sort` sorts, and libelf, zlib and deflate. -/
structure Environment where
  files : CString → Option Bytes
  elfs : CString → Option Elf
  libelf : Libelf
  findOrdinal : List CString → Option CString → CString → Option UInt32
  epocVersion : ℕ
  timestamp : UInt64
  stack : Bytes
  sorts : Sorts
  crc32 : UInt32 → Bytes → UInt32
  DeflateCompress : Bytes → Bytes

def Elf2e32Options.initial (env : Environment) : Elf2e32Options where
  headers := initialHeaders (initialHeader
    (if env.epocVersion ≤ EPOC_VERSION_9_3 then toolsVersionOf 2 0 505
      else if env.epocVersion ≤ EPOC_VERSION_9_4 then toolsVersionOf 2 0 512
      else toolsVersionOf 2 1 15)
    env.timestamp
    (KImageImpFmt_ELF ||| KImageHdrFmt_V ||| KImageEpt_Eka2 ||| KImageABI_EABI ||| KImageNoCallEntryPoint)
    ECpuArmV5) KImageHdr_ExpD_FullBitmap
  exportList := ExportList.empty
  output := none
  elfinput := none
  libpath := []
  defoutput := none
  dso := none
  linkas := none
  noexportlibrary := false

def Headers.isDll (h : Headers) : Bool := h.header.flags &&& KImageDll ≠ 0

/-- `header.uidChecksum = uidCrc(...)`, behind the options. -/
def Headers.setUidChecksum (h : Headers) : Headers :=
  { h with header := { h.header with uidChecksum := uidCrc h.header.uid1 h.header.uid2 h.header.uid3 } }

/-- What `main` knows when it starts to write. -/
structure Prepared where
  headers : Headers
  elf : Elf
  exportList : ExportList
  libpath : List CString

/-- The exports of a library come from the ELF file too. -/
def exportsOf (headers : Headers) (elf : Elf) (l : ExportList) : ExportList :=
  if headers.isDll then findExports elf l else l

def exportDescTypeOf (headers : Headers) (l : ExportList) : UInt8 :=
  if headers.isDll ∧ l.exports.length > 0 then KImageHdr_ExpD_NoHoles else headers.headerV.exportDescType

/-- The address of the exception descriptor, with its lowest bit set. -/
def exceptionDescriptorOf (elf : Elf) : UInt32 :=
  ((findSymbol elf (chars "Symbian$$CPP$$Exception$$Descriptor")).map (· ||| 1)).getD 0

/-- `main` from the ELF file to the program headers. -/
def prepareElf (s : Elf2e32Options) (headers : Headers) (elf : Elf) : Except Stop Prepared :=
  let exportList := exportsOf headers elf s.exportList
  if exportList.warnMissing then .error (.returns 1)
  -- `writeDso` copies a null name
  else if headers.isDll ∧ s.dso ≠ none ∧ !s.noexportlibrary ∧ s.linkas = none then .error .crashes
  else
    .ok {
      headers := { headers with
        header := readProgramHeaders elf.phdrs headers.header
        headerV := { headers.headerV with
          exportDescType := exportDescTypeOf headers exportList
          exceptionDescriptor := exceptionDescriptorOf elf } }
      elf := elf
      exportList := exportList.doSort
      libpath := s.libpath }

/-- `main` up to the program headers. -/
def prepare (env : Environment) (options : List LongOption) : Except Stop Prepared := do
  let s ← options.foldlM (longOption env.files) (Elf2e32Options.initial env)
  match s.elfinput, s.output with
  | none, _ =>
    -- at most an import library is written
    .error (.returns (if s.exportList.exports.length = 0 ∨ s.dso = none then 1 else 0))
  | some _, none => .error (.returns 1)
  | some elfinput, some _ =>
    match env.elfs elfinput with
    | none => .error (.returns 1)
    | some elf => prepareElf s s.headers.setUidChecksum elf

/-- The code with the export table and the data: the file and the header when the relocations start. -/
def layout (p : Prepared) : Image × RelocationList :=
  let i := writeCode p.elf.sections ⟨emptyOut, p.headers.header⟩
  let (i, relocations) := if p.headers.isDll then writeExports p.exportList i else (i, RelocationList.empty)
  (writeData p.elf.sections i, relocations)

/-- The loop over the `REL` sections. -/
def relocate (env : Environment) (p : Prepared) (header : E32ImageHeader) (s : RelocState) :
    Except Stop RelocState :=
  if p.elf.sections.any fun scn => scn.sh_type = SHT_REL then
    match findRelocSections p.elf with
    | none => .error .crashes
    | some sections =>
      checkRelocations env.stack (fun symbol lib => .ok (env.findOrdinal p.libpath symbol lib)) p.elf sections header
        (relocationEntries p.elf) s
  else .ok s

/-- The fields that are relative to `codeBase`. -/
def Headers.relativeTo (h : Headers) (elf : Elf) (header : E32ImageHeader) : Headers :=
  { h with
    header := { header with entryPoint := elf.e_entry - header.codeBase }
    headerV := { h.headerV with exceptionDescriptor :=
      if h.headerV.exceptionDescriptor ≠ 0 then h.headerV.exceptionDescriptor - header.codeBase else 0 } }

/-- The image before `finalizeE32Image`: the file with its body, and the headers. -/
def buildImage (env : Environment) (p : Prepared) : Except Stop (Bytes × Headers) := do
  let (i, relocations) := layout p
  let s ← relocate env p i.header ⟨i.out, ImportList.empty, relocations, RelocationList.empty⟩
  let h := p.headers.relativeTo p.elf i.header
  let (i, uncompressedSize) := writeTables env.sorts true true h.header s
  return (i.out, { h with header := i.header, headerComp := ⟨uncompressedSize⟩ })

/-- `main` of elf2e32: the image it writes. -/
def elf2e32 (env : Environment) (options : List LongOption) : Except Stop Bytes := do
  let p ← prepare env options
  let (out, h) ← buildImage env p
  return finalizeE32Image env.crc32 env.DeflateCompress out h true

/-! ### An environment to run in -/

/-- zlib's `crc32`, bit by bit. -/
def crc32Bit (crc : UInt32) : UInt32 := if crc &&& 1 = 1 then (crc >>> 1) ^^^ 0xedb88320 else crc >>> 1

def crc32Byte (crc : UInt32) (b : UInt8) : UInt32 := crc32Bit^[8] (crc ^^^ b.toUInt32)

def zlibCrc32 (crc : UInt32) (buf : Bytes) : UInt32 := ~~~ buf.foldl crc32Byte (~~~ crc)

/-- A libelf that hands out what is inside of a file, at the end of what can be read. -/
def plainLibelf : Libelf where
  elf_getdata_rawchunk elf offset size _ :=
    if offset.toNat + size.toNat ≤ elf.file.length then some ⟨readAt elf.file offset.toNat size.toNat, []⟩ else none
  inside _ _ _ _ h := ⟨[], if_pos h⟩

/-- An SDK of version 9.4 without files, with a compressor that is told what to do. -/
def plainEnvironment (elf : Option Elf) (DeflateCompress : Bytes → Bytes) : Environment where
  files _ := none
  elfs _ := elf
  libelf := plainLibelf
  findOrdinal _ _ _ := none
  epocVersion := EPOC_VERSION_9_4
  timestamp := 0xDCDDB3E5D20000
  stack := []
  sorts := ⟨mergeSortNames, mergeSortOffsets⟩
  crc32 := zlibCrc32
  DeflateCompress := DeflateCompress

end GnuPoc.E32
