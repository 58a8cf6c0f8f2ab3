import GnuPoc.E32.Elf2e32
import GnuPoc.Lib.Regions

/-!
# GnuPoc.E32.Layout — where the parts of an image stand

The sizes are counted in 32-bit fields of the header while the position comes from the file.  Code is
only ever appended together with its count, so the two agree modulo `2³²`; they agree exactly as long as
the file is shorter than that.
-/

namespace GnuPoc.E32

open GnuPoc.Lib

/-! ### The header behind the options -/

/-- The fields that count or locate a part of the body. -/
structure BodyFields where
  codeOffset : UInt32
  codeSize : UInt32
  textSize : UInt32
  exportDirOffset : UInt32
  dataOffset : UInt32
  dataSize : UInt32
  dataRelocOffset : UInt32
  deriving DecidableEq

def E32ImageHeader.bodyFields (h : E32ImageHeader) : BodyFields where
  codeOffset := h.codeOffset
  codeSize := h.codeSize.toUInt32
  textSize := h.textSize.toUInt32
  exportDirOffset := h.exportDirOffset
  dataOffset := h.dataOffset
  dataSize := h.dataSize.toUInt32
  dataRelocOffset := h.dataRelocOffset

/-- Nothing is written yet. -/
def noBody : BodyFields := ⟨UInt32.ofNat CRCSIZE, 0, 0, 0, 0, 0, 0⟩

theorem setHeap_bodyFields (optarg : CString) (h : E32ImageHeader) :
    (setHeap optarg h).bodyFields = h.bodyFields := by
  unfold setHeap
  simp only
  split <;> rfl

/-- No option sets a field of the body. -/
theorem longOption_bodyFields {files : CString → Option Bytes} {s s' : Elf2e32Options} {o : LongOption}
    (h : longOption files s o = .ok s') : s'.headers.header.bodyFields = s.headers.header.bodyFields := by
  unfold longOption at h
  cases o with
  | invalid => cases h
  | heap optarg =>
    cases h
    exact setHeap_bodyFields optarg _
  | fpu optarg =>
    simp only at h
    split at h
    · cases h
      rfl
    · split at h
      · cases h
        rfl
      · cases h
  | targettype optarg =>
    simp only at h
    split at h
    · cases h
      rfl
    · split at h <;> cases h <;> rfl
  | definput optarg =>
    simp only at h
    split at h <;> cases h
    rfl
  | compressionmethod optarg =>
    simp only at h
    split at h
    · cases h
      rfl
    · split at h <;> cases h <;> rfl
  | _ =>
    cases h
    rfl

theorem options_bodyFields {files : CString → Option Bytes} {options : List LongOption} {s s' : Elf2e32Options}
    (h : options.foldlM (longOption files) s = .ok s') :
    s'.headers.header.bodyFields = s.headers.header.bodyFields := by
  induction options generalizing s with
  | nil =>
    cases h
    rfl
  | cons o options ih =>
    rw [List.foldlM_cons] at h
    obtain ⟨s₁, h1, h⟩ := bind_eq_ok.mp h
    rw [ih h, longOption_bodyFields h1]

theorem readProgramHeaders_bodyFields (phdrs : List Elf32_Phdr) (h : E32ImageHeader) :
    (readProgramHeaders phdrs h).bodyFields = h.bodyFields := by
  unfold readProgramHeaders
  induction phdrs generalizing h with
  | nil => rfl
  | cons phdr phdrs ih =>
    rw [List.foldl_cons, ih]
    split
    · rfl
    · split <;> rfl

theorem prepare_noBody {env : Environment} {options : List LongOption} {p : Prepared}
    (hp : prepare env options = .ok p) : p.headers.header.bodyFields = noBody := by
  obtain ⟨s, hs, hp⟩ := bind_eq_ok.mp hp
  have hfields : s.headers.header.bodyFields = noBody := options_bodyFields hs
  split at hp
  · cases hp
  · cases hp
  · split at hp
    · cases hp
    · next elf _ =>
      unfold prepareElf at hp
      simp only at hp
      split at hp
      · cases hp
      · split at hp
        · cases hp
        · cases hp
          exact (readProgramHeaders_bodyFields elf.phdrs _).trans hfields

/-! ### Code -/

/-- Bytes of code, counted. -/
def Image.appendCode (i : Image) (code : Bytes) : Image :=
  ⟨i.out ++ code, i.header.addCode (UInt32.ofNat code.length)⟩

theorem addCode_zero (h : E32ImageHeader) : h.addCode 0 = h := by
  unfold E32ImageHeader.addCode
  rw [UInt32.add_zero, UInt32.add_zero]
  rfl

theorem addCode_add (h : E32ImageHeader) (m n : UInt32) : (h.addCode m).addCode n = h.addCode (m + n) := by
  unfold E32ImageHeader.addCode
  simp only [UInt32.add_assoc, UInt32.toUInt32_toInt32]

theorem appendCode_nil (i : Image) : i.appendCode [] = i := by
  show Image.mk (i.out ++ []) (i.header.addCode 0) = i
  rw [List.append_nil, addCode_zero]

theorem appendCode_append (i : Image) (a b : Bytes) : (i.appendCode a).appendCode b = i.appendCode (a ++ b) := by
  unfold Image.appendCode
  rw [List.append_assoc, addCode_add, List.length_append, UInt32.ofNat_add]

theorem padCode_eq (i : Image) (pad : UInt32) : i.padCode pad = i.appendCode (List.replicate pad.toNat 0) := by
  unfold Image.padCode Image.appendCode
  rw [List.length_replicate, UInt32.ofNat_toNat]

/-- What the code loop writes for a section, `here` being the address reached. -/
def sectionCode (here : UInt32) (s : Elf_Scn) : Bytes :=
  match s.rawdata with
  | none => []
  | some d_buf =>
    if isCode s then List.replicate (if here < s.sh_addr then s.sh_addr - here else 0).toNat 0 ++ d_buf else []

theorem sectionCode_none {here : UInt32} {s : Elf_Scn} (h : s.rawdata = none) : sectionCode here s = [] := by
  unfold sectionCode
  rw [h]

theorem sectionCode_some {here : UInt32} {s : Elf_Scn} {d_buf : Bytes} (h : s.rawdata = some d_buf) :
    sectionCode here s = if isCode s then
      List.replicate (if here < s.sh_addr then s.sh_addr - here else 0).toNat 0 ++ d_buf else [] := by
  unfold sectionCode
  rw [h]

theorem writeCodeSection_eq (i : Image) (s : Elf_Scn) :
    writeCodeSection i s = i.appendCode (sectionCode (i.header.codeBase + i.header.codeSize.toUInt32) s) := by
  unfold writeCodeSection
  split
  · next hd => rw [sectionCode_none hd, appendCode_nil]
  · next d_buf hd =>
    have hlen : UInt32.ofNat d_buf.length = s.sh_size := by
      rw [(s.rawdata_size d_buf hd).1, UInt32.ofNat_toNat]
    have hwrite (i : Image) : Image.mk (i.out ++ d_buf) (i.header.addCode s.sh_size) = i.appendCode d_buf := by
      rw [Image.appendCode, hlen]
    rw [sectionCode_some hd]
    split
    · simp only
      rw [hwrite, ← appendCode_append]
      split
      · rw [padCode_eq]
      · exact congrArg (Image.appendCode · d_buf) (appendCode_nil i).symm
    · rw [appendCode_nil]

/-- What the code loop writes for sections in a row. -/
def codeBytes : UInt32 → List Elf_Scn → Bytes
  | _, [] => []
  | here, s :: sections =>
    sectionCode here s ++ codeBytes (here + UInt32.ofNat (sectionCode here s).length) sections

theorem foldl_writeCodeSection (sections : List Elf_Scn) (i : Image) :
    sections.foldl writeCodeSection i =
      i.appendCode (codeBytes (i.header.codeBase + i.header.codeSize.toUInt32) sections) := by
  induction sections generalizing i with
  | nil => exact (appendCode_nil i).symm
  | cons s sections ih =>
    rw [List.foldl_cons, ih, writeCodeSection_eq, appendCode_append, codeBytes]
    congr 3
    show i.header.codeBase + (i.header.codeSize.toUInt32 + _).toInt32.toUInt32 = _
    rw [UInt32.toUInt32_toInt32, UInt32.add_assoc]

/-- Zeros up to a multiple of four of the code. -/
def codePadding (i : Image) (code : Bytes) : Bytes :=
  List.replicate (padding (i.header.codeSize.toUInt32 + UInt32.ofNat code.length)).toNat 0

/-- The code without the export table. -/
def codePart (sections : List Elf_Scn) (i : Image) : Bytes :=
  let code := codeBytes (i.header.codeBase + i.header.codeSize.toUInt32) sections
  code ++ codePadding i code

theorem writeCode_eq (sections : List Elf_Scn) (i : Image) :
    writeCode sections i = i.appendCode (codePart sections i) := by
  unfold writeCode codePart
  simp only
  rw [foldl_writeCodeSection, padCode_eq, ← appendCode_append]
  rfl

/-! ### Sections in address order -/

/-- The bytes of a section that the code loop writes, at its address. -/
def codeRegion (s : Elf_Scn) : Option (Region UInt8) :=
  if isCode s then s.rawdata.map fun d_buf => ⟨s.sh_addr.toNat, d_buf⟩ else none

def codeRegions (sections : List Elf_Scn) : List (Region UInt8) := sections.filterMap codeRegion

theorem sectionCode_of_none {here : UInt32} {s : Elf_Scn} (h : codeRegion s = none) : sectionCode here s = [] := by
  unfold codeRegion at h
  cases hd : s.rawdata with
  | none => exact sectionCode_none hd
  | some d_buf =>
    rw [sectionCode_some hd]
    split
    · next hcode => simp [hcode, hd] at h
    · rfl

theorem sectionCode_of_some {base : ℕ} {s : Elf_Scn} {r : Region UInt8} (h : codeRegion s = some r)
    (hbase : base ≤ r.start) :
    sectionCode (UInt32.ofNat base) s = List.replicate (r.start - base) 0 ++ r.cells := by
  unfold codeRegion at h
  split at h
  · next hcode =>
    obtain ⟨d_buf, hd, rfl⟩ := Option.map_eq_some_iff.mp h
    have haddr := s.sh_addr.toNat_lt
    have hhere : (UInt32.ofNat base).toNat = base := by
      rw [UInt32.toNat_ofNat']
      simp only at hbase
      omega
    have hpad : (if UInt32.ofNat base < s.sh_addr then s.sh_addr - UInt32.ofNat base else 0).toNat =
        s.sh_addr.toNat - base := by
      split
      · next hlt => rw [UInt32.toNat_sub_of_le _ _ (UInt32.le_of_lt hlt), hhere]
      · next hlt =>
        rw [UInt32.lt_iff_toNat_lt, hhere] at hlt
        show 0 = _
        omega
    rw [sectionCode_some hd, if_pos hcode, hpad]
  · cases h

theorem codeBytes_eq_spread {sections : List Elf_Scn} {base : ℕ} (h : Ascending base (codeRegions sections)) :
    codeBytes (UInt32.ofNat base) sections = spread 0 base (codeRegions sections) := by
  induction sections generalizing base with
  | nil => rfl
  | cons s sections ih =>
    unfold codeRegions at h
    rw [codeBytes, codeRegions]
    cases hs : codeRegion s with
    | none =>
      rw [List.filterMap_cons_none hs] at h ⊢
      rw [sectionCode_of_none hs, List.nil_append]
      show codeBytes (UInt32.ofNat base + 0) sections = _
      rw [UInt32.add_zero]
      exact ih h
    | some r =>
      rw [List.filterMap_cons_some hs] at h ⊢
      obtain ⟨hstart, hrest⟩ := h
      have hend : base + (List.replicate (r.start - base) 0 ++ r.cells).length = r.stop := by
        rw [List.length_append, List.length_replicate]
        unfold Region.stop
        omega
      rw [sectionCode_of_some hs hstart, ← UInt32.ofNat_add, hend, ih hrest]
      rfl

/-! ### The export table -/

/-- The bytes `ExportList::write` adds, nothing without exports. -/
def exportTable (l : Elf.ExportList) : Bytes :=
  writeUint32 (UInt32.ofNat l.exports.length) ++ l.exports.flatMap fun e => writeUint32 e.address

theorem length_exportTable (l : Elf.ExportList) : (exportTable l).length = 4 + 4 * l.exports.length := by
  unfold exportTable
  rw [List.length_append, length_writeUint32, List.length_flatMap]
  simp only [length_writeUint32, List.map_const', List.sum_replicate_nat]
  omega

theorem foldl_writeExport (codeOffset : UInt32) (exports : List Elf.Export) (s : Bytes × RelocationList) :
    (exports.foldl (writeExport codeOffset) s).1 = s.1 ++ exports.flatMap fun e => writeUint32 e.address := by
  induction exports generalizing s with
  | nil => exact (List.append_nil _).symm
  | cons e exports ih =>
    rw [List.foldl_cons, ih, List.flatMap_cons, ← List.append_assoc]
    rfl

/-- The header with the place of the export table behind `out`. -/
def E32ImageHeader.withExports (h : E32ImageHeader) (out : Bytes) (count : ℕ) : E32ImageHeader :=
  { h with exportDirOffset := ftell out + 4, exportDirCount := Int32.ofNat count }

theorem writeExports_eq {l : Elf.ExportList} (i : Image) (h : l.exports.length ≠ 0) :
    (writeExports l i).1 =
      Image.appendCode ⟨i.out, i.header.withExports i.out l.exports.length⟩ (exportTable l) := by
  have hout := foldl_writeExport i.header.codeOffset l.exports
    (i.out ++ writeUint32 (UInt32.ofNat l.exports.length), RelocationList.empty)
  unfold writeExports
  rw [if_neg h]
  unfold Image.appendCode exportTable
  simp only [E32ImageHeader.withExports] at hout ⊢
  rw [hout, List.append_assoc]
  congr 2
  unfold ftell
  rw [List.length_append, UInt32.ofNat_add, UInt32.add_comm, UInt32.add_sub_cancel]

theorem withExports_appendCode (i : Image) (code : Bytes) (count : ℕ) :
    Image.mk (i.appendCode code).out ((i.appendCode code).header.withExports (i.appendCode code).out count) =
      Image.appendCode ⟨i.out, i.header.withExports (i.out ++ code) count⟩ code := rfl

/-- What `main` writes between the code and the data. -/
def exportPart (p : Prepared) : Bytes :=
  if p.headers.isDll ∧ p.exportList.exports.length ≠ 0 then exportTable p.exportList else []

/-! ### Data -/

/-- The data of the sections that the data loop writes. -/
def dataParts (sections : List Elf_Scn) : List Bytes :=
  sections.filterMap fun s => if isData s then s.rawdata else none

def Image.appendData (i : Image) (d_buf : Bytes) : Image :=
  ⟨i.out ++ d_buf, { i.header with
    dataOffset := ftell i.out
    dataSize := (i.header.dataSize.toUInt32 + UInt32.ofNat d_buf.length).toInt32 }⟩

theorem foldl_writeDataSection (sections : List Elf_Scn) (i : Image) :
    sections.foldl writeDataSection i = (dataParts sections).foldl Image.appendData i := by
  induction sections generalizing i with
  | nil => rfl
  | cons s sections ih =>
    rw [List.foldl_cons, ih]
    unfold dataParts writeDataSection Image.appendData
    split
    · next hd =>
      rw [List.filterMap_cons_none]
      rw [hd]
      split <;> rfl
    · next d_buf hd =>
      split
      · next hdata =>
        rw [List.filterMap_cons_some (by rw [if_pos hdata, hd]), List.foldl_cons,
          (s.rawdata_size d_buf hd).1, UInt32.ofNat_toNat]
      · next hdata =>
        rw [List.filterMap_cons_none]
        rw [if_neg hdata]

theorem foldl_appendData_out (ds : List Bytes) (i : Image) :
    (ds.foldl Image.appendData i).out = i.out ++ ds.flatten := by
  induction ds generalizing i with
  | nil => exact (List.append_nil _).symm
  | cons d ds ih =>
    rw [List.foldl_cons, ih, List.flatten_cons, ← List.append_assoc]
    rfl

/-- The header that `data` leaves, its offset and its size apart. -/
def E32ImageHeader.withData (h : E32ImageHeader) (offset size : UInt32) : E32ImageHeader :=
  { h with dataOffset := offset, dataSize := size.toInt32 }

/-- The offset is that of the last section written, the size that of all of them. -/
theorem foldl_appendData_header (ds : List Bytes) (i : Image) : (ds.foldl Image.appendData i).header =
    i.header.withData
      (if ds = [] then i.header.dataOffset else UInt32.ofNat (i.out.length + ds.dropLast.flatten.length))
      (i.header.dataSize.toUInt32 + UInt32.ofNat ds.flatten.length) := by
  induction ds generalizing i with
  | nil =>
    show i.header = i.header.withData i.header.dataOffset (i.header.dataSize.toUInt32 + 0)
    rw [UInt32.add_zero]
    rfl
  | cons d ds ih =>
    have hsize : (i.appendData d).header.dataSize.toUInt32 + UInt32.ofNat ds.flatten.length =
        i.header.dataSize.toUInt32 + UInt32.ofNat (d :: ds).flatten.length := by
      show (i.header.dataSize.toUInt32 + UInt32.ofNat d.length).toInt32.toUInt32 + _ = _
      rw [UInt32.toUInt32_toInt32, List.flatten_cons, List.length_append, UInt32.ofNat_add, UInt32.add_assoc]
    rw [List.foldl_cons, ih, hsize, if_neg (List.cons_ne_nil d ds)]
    by_cases hds : ds = []
    · subst hds
      rfl
    · have hlen : (i.appendData d).out.length + ds.dropLast.flatten.length =
          i.out.length + (d :: ds).dropLast.flatten.length := by
        rw [List.dropLast_cons_of_ne_nil hds, List.flatten_cons, List.length_append, ← Nat.add_assoc]
        exact congrArg (· + _) List.length_append
      rw [if_neg hds, hlen]
      rfl

/-! ### The whole layout -/

/-- What `main` has when the data loop starts. -/
def codeImage (p : Prepared) : Image :=
  let i := writeCode p.elf.sections ⟨emptyOut, p.headers.header⟩
  if p.headers.isDll then (writeExports p.exportList i).1 else i

theorem layout_eq (p : Prepared) : (layout p).1 = writeData p.elf.sections (codeImage p) := by
  unfold layout codeImage
  split <;> rfl

/-- The code of the ELF file as it is written, padded. -/
def elfCode (p : Prepared) : Bytes := codePart p.elf.sections ⟨emptyOut, p.headers.header⟩

/-- The header that says where the exports are, if there are any. -/
def exportHeader (p : Prepared) : E32ImageHeader :=
  if p.headers.isDll ∧ p.exportList.exports.length ≠ 0 then
    p.headers.header.withExports (emptyOut ++ elfCode p) p.exportList.exports.length
  else p.headers.header

theorem codeImage_eq (p : Prepared) : codeImage p =
    ⟨emptyOut ++ (elfCode p ++ exportPart p),
      (exportHeader p).addCode (UInt32.ofNat (elfCode p ++ exportPart p).length)⟩ := by
  unfold codeImage exportPart exportHeader
  simp only
  rw [writeCode_eq]
  by_cases hdll : p.headers.isDll = true
  · rw [if_pos hdll]
    by_cases hn : p.exportList.exports.length = 0
    · rw [if_neg fun h => h.2 hn, if_neg fun h => h.2 hn, List.append_nil]
      unfold writeExports
      rw [if_pos hn]
      rfl
    · rw [if_pos ⟨hdll, hn⟩, if_pos ⟨hdll, hn⟩, writeExports_eq _ hn, withExports_appendCode, appendCode_append]
      rfl
  · rw [if_neg hdll, if_neg fun h => hdll h.1, if_neg fun h => hdll h.1, List.append_nil]
    rfl

/-- The initialised data, and the zeros behind it. -/
def imageData (p : Prepared) : Bytes := (dataParts p.elf.sections).flatten

def dataPadding (p : Prepared) : Bytes :=
  List.replicate (padding (UInt32.ofNat (imageData p).length)).toNat 0

def codeWithExports (p : Prepared) : Bytes := elfCode p ++ exportPart p

/-- How far into the data the last section starts. -/
def dataStart (p : Prepared) : ℕ := (dataParts p.elf.sections).dropLast.flatten.length

theorem dataStart_le (p : Prepared) : dataStart p ≤ (imageData p).length :=
  (List.dropLast_sublist _).flatten.length_le

/-- What is written when the relocations start. -/
def bodyBytes (p : Prepared) : Bytes := codeWithExports p ++ imageData p ++ dataPadding p

theorem addCode_bodyFields (h : E32ImageHeader) (n : UInt32) : (h.addCode n).bodyFields =
    { h.bodyFields with codeSize := h.bodyFields.codeSize + n, textSize := h.bodyFields.textSize + n } := by
  unfold E32ImageHeader.addCode E32ImageHeader.bodyFields
  simp only [UInt32.toUInt32_toInt32]

theorem withData_bodyFields (h : E32ImageHeader) (offset size : UInt32) : (h.withData offset size).bodyFields =
    { h.bodyFields with dataOffset := offset, dataSize := size } := by
  unfold E32ImageHeader.withData E32ImageHeader.bodyFields
  simp only [UInt32.toUInt32_toInt32]

theorem exportHeader_bodyFields (p : Prepared) : (exportHeader p).bodyFields =
    { p.headers.header.bodyFields with
      exportDirOffset := if p.headers.isDll ∧ p.exportList.exports.length ≠ 0 then
        ftell (emptyOut ++ elfCode p) + 4 else p.headers.header.bodyFields.exportDirOffset } := by
  unfold exportHeader
  split <;> rfl

section
variable {p : Prepared} (hp : p.headers.header.bodyFields = noBody)
include hp

/-- Where the parts of the body stand. -/
theorem layout_shape :
    (layout p).1.out = emptyOut ++ bodyBytes p ∧
    (layout p).1.header.importOffset = ftell (layout p).1.out ∧
    (layout p).1.header.bodyFields = {
      codeOffset := UInt32.ofNat CRCSIZE
      codeSize := UInt32.ofNat (codeWithExports p).length
      textSize := UInt32.ofNat (codeWithExports p).length
      exportDirOffset := if p.headers.isDll ∧ p.exportList.exports.length ≠ 0 then
        ftell (emptyOut ++ elfCode p) + 4 else 0
      dataOffset := if dataParts p.elf.sections = [] then 0
        else UInt32.ofNat (CRCSIZE + (codeWithExports p).length + dataStart p)
      dataSize := UInt32.ofNat (imageData p).length
      dataRelocOffset := 0 } := by
  have hheader := foldl_appendData_header (dataParts p.elf.sections) (codeImage p)
  have hout := foldl_appendData_out (dataParts p.elf.sections) (codeImage p)
  have hfields : (codeImage p).header.bodyFields =
      { noBody with
        codeSize := UInt32.ofNat (codeWithExports p).length
        textSize := UInt32.ofNat (codeWithExports p).length
        exportDirOffset := if p.headers.isDll ∧ p.exportList.exports.length ≠ 0 then
          ftell (emptyOut ++ elfCode p) + 4 else 0 } := by
    rw [codeImage_eq]
    show (E32ImageHeader.addCode _ _).bodyFields = _
    rw [addCode_bodyFields, exportHeader_bodyFields, hp]
    simp only [noBody, UInt32.zero_add]
    rfl
  have hsize : (codeImage p).header.dataSize.toUInt32 = 0 := congrArg BodyFields.dataSize hfields
  have hcode : (codeImage p).out = emptyOut ++ codeWithExports p := by
    rw [codeImage_eq]
    rfl
  have hlen : (codeImage p).out.length = CRCSIZE + (codeWithExports p).length := by
    rw [hcode, List.length_append, emptyOut, List.length_replicate]
  rw [hsize, UInt32.zero_add, hlen] at hheader
  have hdata : ((dataParts p.elf.sections).foldl Image.appendData (codeImage p)).header.dataSize.toUInt32 =
      UInt32.ofNat (imageData p).length := by
    rw [hheader]
    exact UInt32.toUInt32_toInt32 _
  rw [layout_eq]
  unfold writeData
  rw [foldl_writeDataSection]
  simp only
  rw [hdata, hout, hcode]
  refine ⟨?_, trivial, ?_⟩
  · simp only [bodyBytes, List.append_assoc]
    rfl
  · show ((dataParts p.elf.sections).foldl Image.appendData (codeImage p)).header.bodyFields = _
    rw [hheader, withData_bodyFields, hfields]
    have hoffset : (codeImage p).header.dataOffset = 0 := congrArg BodyFields.dataOffset hfields
    rw [hoffset]
    rfl

theorem elfCode_eq (h : Ascending p.headers.header.codeBase.toNat (codeRegions p.elf.sections)) :
    elfCode p = spread 0 p.headers.header.codeBase.toNat (codeRegions p.elf.sections) ++
      List.replicate (padding (UInt32.ofNat
        (spread 0 p.headers.header.codeBase.toNat (codeRegions p.elf.sections)).length)).toNat 0 := by
  have hsize : p.headers.header.codeSize.toUInt32 = 0 := congrArg BodyFields.codeSize hp
  have hcode := codeBytes_eq_spread h
  rw [UInt32.ofNat_toNat] at hcode
  unfold elfCode codePart codePadding
  simp only [hsize, UInt32.add_zero, UInt32.zero_add, hcode]

theorem length_layout : (layout p).1.out.length =
    CRCSIZE + (codeWithExports p).length + (imageData p).length + (dataPadding p).length := by
  obtain ⟨hout, -⟩ := layout_shape hp
  rw [hout, bodyBytes, List.length_append, List.length_append, List.length_append, emptyOut,
    List.length_replicate]
  omega

end

theorem layout_codeBase (p : Prepared) : (layout p).1.header.codeBase = p.headers.header.codeBase := by
  rw [layout_eq]
  unfold writeData
  rw [foldl_writeDataSection]
  show ((dataParts p.elf.sections).foldl Image.appendData (codeImage p)).header.codeBase = _
  rw [foldl_appendData_header]
  show (codeImage p).header.codeBase = _
  rw [codeImage_eq]
  show (exportHeader p).codeBase = _
  unfold exportHeader
  split <;> rfl

/-- The ranges of the code and of the data, as the header has them, are in the file and apart. -/
structure FileRanges (header : E32ImageHeader) (out : Bytes) : Prop where
  short : out.length < 2 ^ 32
  code : header.codeOffset.toNat + header.codeSize.toUInt32.toNat ≤ out.length
  apart : header.dataSize.toUInt32 ≠ 0 →
    header.codeOffset.toNat + header.codeSize.toUInt32.toNat ≤ header.dataOffset.toNat

section
variable {p : Prepared} (hp : p.headers.header.bodyFields = noBody) (hshort : (layout p).1.out.length < 2 ^ 32)
include hp hshort

/-- The sizes in the header are those of the parts. -/
theorem layout_sizes : (layout p).1.header.codeOffset.toNat = CRCSIZE ∧
    (layout p).1.header.codeSize.toUInt32.toNat = (codeWithExports p).length ∧
    (layout p).1.header.dataSize.toUInt32.toNat = (imageData p).length ∧
    (dataParts p.elf.sections ≠ [] →
      (layout p).1.header.dataOffset.toNat = CRCSIZE + (codeWithExports p).length + dataStart p) ∧
    (layout p).1.header.importOffset.toNat = (layout p).1.out.length := by
  obtain ⟨-, himport, hfields⟩ := layout_shape hp
  have hlen := length_layout hp
  have hstart := dataStart_le p
  have hoffset : (layout p).1.header.codeOffset = UInt32.ofNat CRCSIZE := congrArg BodyFields.codeOffset hfields
  have hcode : (layout p).1.header.codeSize.toUInt32 = UInt32.ofNat (codeWithExports p).length :=
    congrArg BodyFields.codeSize hfields
  have hdata : (layout p).1.header.dataSize.toUInt32 = UInt32.ofNat (imageData p).length :=
    congrArg BodyFields.dataSize hfields
  refine ⟨?_, ?_, ?_, fun hparts => ?_, ?_⟩
  · rw [hoffset]
    rfl
  · rw [hcode, UInt32.toNat_ofNat', Nat.mod_eq_of_lt (by omega)]
  · rw [hdata, UInt32.toNat_ofNat', Nat.mod_eq_of_lt (by omega)]
  · have hpos := congrArg BodyFields.dataOffset hfields
    simp only [if_neg hparts] at hpos
    have hpos' : (layout p).1.header.dataOffset = UInt32.ofNat (CRCSIZE + (codeWithExports p).length + dataStart p) :=
      hpos
    rw [hpos', UInt32.toNat_ofNat', Nat.mod_eq_of_lt (by omega)]
  · rw [himport, ftell, UInt32.toNat_ofNat', Nat.mod_eq_of_lt hshort]

theorem layout_ranges : FileRanges (layout p).1.header (layout p).1.out := by
  obtain ⟨hoffset, hcode, hdata, hpos, -⟩ := layout_sizes hp hshort
  have hlen := length_layout hp
  refine ⟨hshort, ?_, fun hsize => ?_⟩
  · omega
  · have hparts : dataParts p.elf.sections ≠ [] := by
      intro h0
      have hempty : (imageData p).length = 0 := by
        rw [imageData, h0]
        rfl
      refine hsize (UInt32.toNat_inj.mp ?_)
      rw [hdata, hempty]
      rfl
    rw [hcode, hoffset, hpos hparts]
    omega

end

end GnuPoc.E32
