import GnuPoc.E32.Elf2e32

/-!
# GnuPoc.E32.Elftran — `main` of elftran

With an output file elftran builds an image, taking symbols and relocations from the dynamic segment.
Without one it edits the image it is given: the same options run over the header that is read, which is
then written back with its CRC, the body left as it is.
-/

namespace GnuPoc.E32

open GnuPoc.Lib

/-! ### The dynamic segment -/

/-- A null pointer, or one to memory that cannot be read, is read through. -/
def orCrashes {α : Type} (r : Option α) : Except Stop α := r.elim (.error .crashes) .ok

theorem orCrashes_eq_ok {α : Type} {r : Option α} {a : α} : orCrashes r = .ok a ↔ r = some a := by
  cases r with
  | none => exact ⟨nofun, nofun⟩
  | some b => exact ⟨fun h => congrArg some (Except.ok.inj h), fun h => congrArg Except.ok (Option.some.inj h)⟩

/-- The caller of `getTranslatedElfData` reads through the null pointer of a chunk outside of the file. -/
def getTranslatedElfData (libelf : Libelf) (elf : Elf) (offset size : UInt32) (type : Elf_Type) : Except Stop Elf_Data :=
  orCrashes (libelf.elf_getdata_rawchunk elf offset size type)

def wordAt (data : Bytes) (pos : ℕ) : UInt32 := UInt32.ofNat (ofLE (readAt data pos 4))

/-- The number of records up to the end of the data, which may lie within the last one. -/
def recordCount (size : ℕ) (data : Elf_Data) : ℕ := (data.d_buf.length + (size - 1)) / size

/-- The records that a loop up to the end of the data reads. -/
def records {α : Type} (size : ℕ) (decode : Bytes → α) (data : Elf_Data) : Except Stop (List α) := do
  let bytes ← orCrashes (readMemory data.memory (recordCount size data * size))
  return (List.range (recordCount size data)).map fun i => decode (bytes.drop (i * size))

def decodeDyn (b : Bytes) : Elf32_Dyn := ⟨wordAt b 0, wordAt b 4⟩
def decodeRel (b : Bytes) : Elf32_Rel := ⟨wordAt b 0, wordAt b 4⟩
def decodeSym (b : Bytes) : Elf32_Sym :=
  ⟨wordAt b 0, wordAt b 4, wordAt b 8, b.getD 12 0, UInt16.ofNat (ofLE (readAt b 14 2))⟩

/-- `&strtabPtr[st_name]`. -/
def nameAt (strtab : Elf_Data) (st_name : UInt32) : Memory := strtab.memory.drop st_name.toNat

/-- The entries of the dynamic segment that `parseDynamic` looks for. -/
structure DynamicInfo where
  symtabStart : UInt32
  symtabSize : UInt32
  strtabStart : UInt32
  strtabSize : UInt32
  relStart : UInt32
  relSize : UInt32
  deriving DecidableEq

/-- One entry; `DT_HASH` is read but not used. -/
def DynamicInfo.read (d : DynamicInfo) (dyn : Elf32_Dyn) : DynamicInfo :=
  if dyn.d_tag = 6 then { d with symtabStart := dyn.d_val }
  else if dyn.d_tag = 0x70000001 then { d with symtabSize := dyn.d_val }
  else if dyn.d_tag = 5 then { d with strtabStart := dyn.d_val }
  else if dyn.d_tag = 10 then { d with strtabSize := dyn.d_val }
  else if dyn.d_tag = 17 then { d with relStart := dyn.d_val }
  else if dyn.d_tag = 18 then { d with relSize := dyn.d_val }
  else d

/-- The loop over the dynamic segment, from a record on; the count is what is left. -/
def readDynamic (data : Elf_Data) : ℕ → ℕ → DynamicInfo → Except Stop DynamicInfo
  | 0, _, d => .ok d
  | n + 1, i, d => do
    let dyn := decodeDyn ((← orCrashes (readMemory data.memory ((i + 1) * 8))).drop (i * 8))
    if dyn.d_tag = 0 then return d else readDynamic data n (i + 1) (d.read dyn)

def dynamicInfo (data : Elf_Data) : Except Stop DynamicInfo :=
  readDynamic data (recordCount 8 data) 0 ⟨0, 0, 0, 0, 0, 0⟩

/-- A number of `%x`, which is clamped to an `unsigned long` of 64 bits before it is cut off. -/
def clampHex (negative : Bool) (n : ℕ) : UInt32 :=
  if 2 ^ 64 ≤ n then 0xffffffff else if negative then 0 - UInt32.ofNat n else UInt32.ofNat n

/-- `%x`: the value is left alone without a digit. -/
def scanHex (s : Bytes) (value : UInt32) : UInt32 :=
  let s := skipSpaces s
  let negative := s.head? = some 45
  let s := if s.head? = some 45 ∨ s.head? = some 43 then s.tail else s
  let s := match s with
    | 48 :: x :: s => if toupper x = 88 then s else 48 :: x :: s
    | s => s
  if s.takeWhile (fun c => digitOf c < 16) = [] then value else clampHex negative (valueOf 16 s)

/-- The library and the ordinal behind the first mark; `value` holds what it held where they are not there. -/
def splitName (name : Bytes) (value : UInt32) : Option Bytes × UInt32 :=
  match strstr (chars "#<\\DLL>") name with
  | none => (none, value)
  | some end_ => (some (name.take (name.length - end_.length)), scanHex (end_.drop 7) value)

/-- `parseNameValue`, of a name `#<DLL>library#<\DLL>ordinal`. -/
def parseNameValue (name : Memory) (value : UInt32) : Except Stop (Option Bytes × UInt32) := do
  if ← orCrashes (startsWith (chars "#<DLL>") name) then
    return splitName (← orCrashes (readString (name.drop 6))) value
  else return (none, value)

section
variable (stack : Bytes) (out : Bytes)

/-- The loop over the symbols: the export table and its size. -/
def readExportSymbol (strtab : Elf_Data) (header : E32ImageHeader) (sym : Elf32_Sym) : Except Stop E32ImageHeader := do
  let name := nameAt strtab sym.st_name
  if ← orCrashes (equalsString (chars "DLL##ExportTable") name) then
    return { header with
      exportDirOffset := sym.st_value - header.codeBase + header.codeOffset
      flags := header.flags ||| KImageDll }
  else if (← orCrashes (equalsString (chars "DLL##ExportTableSize") name)) ∧ InCode header sym.st_value then
    return { header with exportDirCount :=
      (readWord stack out (sym.st_value - header.codeBase + header.codeOffset).toNat).toInt32 }
  else return header

end

/-- What becomes of an entry against a symbol without a value, behind the call of `parseNameValue`. -/
def relocateDynamic (stack : Bytes) (header : E32ImageHeader) (s : RelocState) (rel : Elf32_Rel)
    (dllname : Option Bytes) (value : UInt32) : Except Stop RelocState :=
  if InCode header rel.r_offset then
    let offset := rel.r_offset - header.codeBase + header.codeOffset
    if rel.type = R_ARM_ABS32 then
      match dllname with
      | none => .error .crashes
      | some dllname =>
        .ok ({ s with out := fixImportRelocation stack offset s.out value }.addImport
          (CString.ofBytes dllname) (rel.r_offset - header.codeBase))
    else if rel.type = R_ARM_RABS22 then
      let (value, out) := fixRelocation stack offset s.out 0
      .ok ({ s with out := out }.addRelocation (rel.r_offset - header.codeBase) value)
    else .ok s
  else if InData header rel.r_offset then
    let (value, out) := fixRelocation stack (rel.r_offset - header.dataBase + header.dataOffset) s.out 0
    .ok ({ s with out := out }.addDataRelocation (rel.r_offset - header.dataBase) value)
  else .ok s

/-- The body of the loop over the relocations; `junk` is what `value` holds. -/
def checkDynamicRelocation (stack : Bytes) (junk : UInt32) (header : E32ImageHeader) (symtab : List Elf32_Sym)
    (strtab : Elf_Data) (s : RelocState) (rel : Elf32_Rel) : Except Stop RelocState :=
  match symtab[rel.sym]? with
  | none => .ok s
  | some sym =>
    if sym.st_value ≠ 0 then .ok s
    else do
      let (dllname, value) ← parseNameValue (nameAt strtab sym.st_name) junk
      relocateDynamic stack header s rel dllname value

/-- `parseDynamic`: the changed header, and the file with its lists. -/
def parseDynamic (libelf : Libelf) (stack : Bytes) (junk : UInt32) (elf : Elf) (phdr : Elf32_Phdr)
    (header : E32ImageHeader) (s : RelocState) : Except Stop (E32ImageHeader × RelocState) := do
  let d ← dynamicInfo (← getTranslatedElfData libelf elf phdr.p_offset phdr.p_filesz .ELF_T_DYN)
  if d.symtabStart = 0 ∨ d.symtabSize = 0 ∨ d.strtabStart = 0 ∨ d.strtabSize = 0 ∨ d.relStart = 0 ∨ d.relSize = 0 then
    return (header, s)
  else
    let symtab ← records 16 decodeSym
      (← getTranslatedElfData libelf elf (phdr.p_offset + d.symtabStart) d.symtabSize .ELF_T_SYM)
    let strtab ← getTranslatedElfData libelf elf (phdr.p_offset + d.strtabStart) d.strtabSize .ELF_T_BYTE
    let rels ← records 8 decodeRel
      (← getTranslatedElfData libelf elf (phdr.p_offset + d.relStart) d.relSize .ELF_T_REL)
    let header ← symtab.foldlM (readExportSymbol stack s.out strtab) header
    let s ← rels.foldlM (checkDynamicRelocation stack junk header symtab strtab) s
    return (header, s)

/-! ### Building an image -/

def EPOC_VERSION_9_1 : ℕ := 0x901
def EPOC_VERSION_9_2 : ℕ := 0x902

/-- What `main` starts `parseOptions` with. -/
def TranOptions.initial (env : Environment) : TranOptions where
  headers := initialHeaders (initialHeader
    (if env.epocVersion ≤ EPOC_VERSION_9_1 then toolsVersionOf 2 1 549
      else if env.epocVersion ≤ EPOC_VERSION_9_2 then toolsVersionOf 2 1 564
      else if env.epocVersion ≤ EPOC_VERSION_9_3 then toolsVersionOf 2 1 576
      else if env.epocVersion ≤ EPOC_VERSION_9_4 then toolsVersionOf 2 1 596
      else toolsVersionOf 2 2 0)
    env.timestamp (KImageImpFmt_ELF ||| KImageHdrFmt_V ||| KImageEpt_Eka2 ||| KImageABI_EABI) ECpuArmV4)
    KImageHdr_ExpD_NoHoles
  dlldata := false
  elfinput := none
  output := none
  dumpFlags := 0
  headersModified := false

/-- `dynamicPhdr`, which the last one wins. -/
def dynamicPhdr (phdrs : List Elf32_Phdr) : Option Elf32_Phdr :=
  (phdrs.filter fun phdr => phdr.p_type = PT_DYNAMIC).getLast?

/-- The image that `main` builds from an ELF file. -/
def buildTran (env : Environment) (junk : UInt32) (elf : Elf) (headers : Headers) : Except Stop (Bytes × Headers) := do
  let headers := { headers with
    headerV := { headers.headerV with exceptionDescriptor := exceptionDescriptorOf elf } }
  let i := writeData elf.sections
    (writeCode elf.sections ⟨emptyOut, readProgramHeaders elf.phdrs headers.header⟩)
  match dynamicPhdr elf.phdrs with
  | none => .error .crashes
  | some phdr => do
    let (header, s) ← parseDynamic env.libelf env.stack junk elf phdr i.header
      ⟨i.out, ImportList.empty, RelocationList.empty, RelocationList.empty⟩
    let h := headers.relativeTo elf header
    let (i, uncompressedSize) := writeTables env.sorts false false h.header s
    return (i.out, { h with header := i.header, headerComp := ⟨uncompressedSize⟩ })

/-- `main` with an output file. -/
def elftranCreate (env : Environment) (junk : UInt32) (argv : List CString) : Except Stop Bytes := do
  let s ← parseOptions argv (TranOptions.initial env)
  match s.elfinput, s.output with
  | some elfinput, some _ =>
    match env.elfs elfinput with
    | none => .error (.returns 1)
    | some elf => do
      let (out, h) ← buildTran env junk elf s.headers.setUidChecksum
      return finalizeE32Image env.crc32 env.DeflateCompress out h true
  | _, _ => .error (.returns 1)

/-! ### Editing an image -/

/-- `main` with an input file alone: the image `file` afterwards.  A header that is cut off is read over
what the variables held and is not modelled. -/
def elftranEdit (env : Environment) (argv : List CString) (file : Bytes) : Except Stop Bytes := do
  let s ← parseOptions argv (TranOptions.initial env)
  match s.elfinput, s.output with
  | some _, none =>
    match readHeaders file with
    | none => .error .crashes
    | some (headers, _) =>
      if s.headersModified then do
        let s ← parseOptions argv { s with headers := headers, elfinput := none, output := none }
        return finalizeE32Image env.crc32 env.DeflateCompress file s.headers false
      else return file
  | _, _ => .error (.returns 1)

section
variable {env : Environment} {argv : List CString} {file file' body : Bytes} {h : Headers}

/-- An edit either leaves the file alone or writes the header that the options made of the old one. -/
theorem elftranEdit_cases (hread : readHeaders file = some (h, body)) (hrun : elftranEdit env argv file = .ok file') :
    (file' = file ∧ lastSetting compressionSetting argv = none) ∨
      ∃ s s' : TranOptions, s.headers = h ∧ parseOptions argv s = .ok s' ∧
        file' = writeHeaders (s'.headers.withCrc (headerCrcOf env.crc32 s'.headers)) ++ file.drop CRCSIZE := by
  obtain ⟨s, hparse, hrun⟩ := bind_eq_ok.mp hrun
  split at hrun
  · rw [hread] at hrun
    simp only at hrun
    split at hrun
    · obtain ⟨s', hparse', hrun⟩ := bind_eq_ok.mp hrun
      cases hrun
      refine Or.inr ⟨_, s', rfl, hparse', ?_⟩
      rw [finalizeE32Image_eq, finalBody, if_neg (by simp)]
    · next hm =>
      cases hrun
      exact Or.inl ⟨rfl, compression_of_unmodified hparse (by simpa using hm)⟩
  · cases hrun

theorem drop_of_readHeaders (hread : readHeaders file = some (h, body)) : file.drop CRCSIZE = body := by
  rw [eq_writeHeaders hread, drop_header]

/-- The body is kept and the compression type tells whether it is a deflate stream. -/
structure KeepsBody (IsDeflate : Bytes → Prop) (file file' : Bytes) : Prop where
  body : file'.drop CRCSIZE = file.drop CRCSIZE
  type : ∃ h body, readHeaders file' = some (h, body) ∧
    (h.header.compressionType = KUidCompressionDeflate ↔ IsDeflate body)

/-- **In-place edit.**  Everything behind the header stays.  The compression type still says how the body
is encoded exactly when the last option about compression, if there is one, agrees with the image. -/
theorem elftranEdit_keeps_iff (IsDeflate : Bytes → Prop) (hread : readHeaders file = some (h, body))
    (hbody : h.header.compressionType = KUidCompressionDeflate ↔ IsDeflate body)
    (hrun : elftranEdit env argv file = .ok file') :
    file'.drop CRCSIZE = file.drop CRCSIZE ∧
      (KeepsBody IsDeflate file file' ↔
        ((lastSetting compressionSetting argv).getD h.header.compressionType = KUidCompressionDeflate ↔
          h.header.compressionType = KUidCompressionDeflate)) := by
  obtain ⟨hkeep, h', hread', htype⟩ : file'.drop CRCSIZE = file.drop CRCSIZE ∧ ∃ h', readHeaders file' = some (h', body) ∧
      h'.header.compressionType = (lastSetting compressionSetting argv).getD h.header.compressionType := by
    rcases elftranEdit_cases hread hrun with ⟨rfl, hnone⟩ | ⟨s, s', rfl, hparse, rfl⟩
    · refine ⟨rfl, h, hread, ?_⟩
      rw [hnone, Option.getD_none]
    · have htype := congrArg UidFields.compressionType (parseOptions_uidFields hparse)
      refine ⟨drop_header _ _, s'.headers.withCrc (headerCrcOf env.crc32 s'.headers), ?_, htype⟩
      rw [readHeaders_write, drop_of_readHeaders hread]
  refine ⟨hkeep, ?_⟩
  rw [← htype]
  constructor
  · rintro ⟨-, h₁, body₁, hread₁, htype₁⟩
    rw [hread'] at hread₁
    obtain ⟨rfl, rfl⟩ := Prod.mk.inj (Option.some.inj hread₁)
    rw [htype₁, hbody]
  · intro hagree
    exact ⟨hkeep, h', body, hread', by rw [hagree, hbody]⟩

end

/-! ### Editing a compressed image -/

/-- An image that holds nothing but its header and a body. -/
def imageOf (compressionType : UInt32) (body : Bytes) : Bytes :=
  writeHeaders (initialHeaders { E32ImageHeader.cleared with compressionType := compressionType } 0) ++ body

def arg (s : String) : CString := CString.ofBytes (chars s)

/-- `elftran -nocompress image` on a compressed image: whatever a deflate stream is, as long as the body is
one. -/
theorem elftranEdit_nocompress :
    ∃ h file', readHeaders (imageOf KUidCompressionDeflate [0x9c]) = some (h, [0x9c]) ∧
      h.header.compressionType = KUidCompressionDeflate ∧
      elftranEdit (plainEnvironment none id) [arg "-nocompress", arg "image"]
        (imageOf KUidCompressionDeflate [0x9c]) = .ok file' ∧
      ∀ IsDeflate : Bytes → Prop, IsDeflate [0x9c] →
        ¬ KeepsBody IsDeflate (imageOf KUidCompressionDeflate [0x9c]) file' := by
  obtain ⟨file', hrun, hedit⟩ := exists_of_any
    (r := elftranEdit (plainEnvironment none id) [arg "-nocompress", arg "image"]
      (imageOf KUidCompressionDeflate [0x9c]))
    (p := fun f => (readHeaders f).any fun r => r.1.header.compressionType == 0 && r.2 == [0x9c])
    (by decide +kernel)
  obtain ⟨⟨h', body⟩, hread, htype⟩ := (Option.any_eq_true _ _).mp hedit
  refine ⟨_, file', readHeaders_write _ _, rfl, hrun, fun IsDeflate hdef hkeep => ?_⟩
  obtain ⟨h₁, body₁, hread₁, hiff⟩ := hkeep.type
  rw [hread] at hread₁
  obtain ⟨rfl, rfl⟩ := Prod.mk.inj (Option.some.inj hread₁)
  simp only [Bool.and_eq_true, beq_iff_eq] at htype
  rw [htype.1, htype.2] at hiff
  exact absurd (hiff.mpr hdef) (by decide)

/-- `elftran -compress -uid3 0x1 image` keeps a compressed image as it is encoded. -/
theorem elftranEdit_keeps_compressed :
    ∃ file', elftranEdit (plainEnvironment none id) [arg "-compress", arg "-uid3", arg "0x1", arg "image"]
        (imageOf KUidCompressionDeflate [0x9c]) = .ok file' ∧
      file'.drop CRCSIZE = (imageOf KUidCompressionDeflate [0x9c]).drop CRCSIZE ∧
      (KeepsBody (fun body => body = [0x9c]) (imageOf KUidCompressionDeflate [0x9c]) file' ↔
        ((lastSetting compressionSetting [arg "-compress", arg "-uid3", arg "0x1", arg "image"]).getD
          KUidCompressionDeflate = KUidCompressionDeflate ↔ KUidCompressionDeflate = KUidCompressionDeflate)) := by
  obtain ⟨file', hrun, -⟩ := exists_of_any
    (r := elftranEdit (plainEnvironment none id) [arg "-compress", arg "-uid3", arg "0x1", arg "image"]
      (imageOf KUidCompressionDeflate [0x9c])) (p := fun _ => true) (by decide +kernel)
  exact ⟨file', hrun, elftranEdit_keeps_iff (fun body => body = [0x9c]) (readHeaders_write _ _)
    (iff_of_true rfl rfl) hrun⟩

end GnuPoc.E32
