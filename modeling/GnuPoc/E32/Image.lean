import GnuPoc.Crc
import GnuPoc.Lib.ByteFile
import Mathlib.Tactic.NormNum

/-!
# GnuPoc.E32.Image — the header of an E32 image (`e32image.h`, `e32image.cpp`)

The three header structures, written and read field by field as little-endian integers, the checksum of
the UIDs, and `finalizeE32Image`, which puts the header and its CRC in front of a finished body.  zlib's
`crc32` and the deflate compressor are arguments.
-/

namespace GnuPoc.E32

open GnuPoc.Lib

/-! ### Writing and reading integers -/

def writeUint32 (value : UInt32) : Bytes := leBytes 4 value.toNat
def writeUint16 (value : UInt16) : Bytes := leBytes 2 value.toNat
def writeUint8 (value : UInt8) : Bytes := [value]

@[simp] theorem length_writeUint32 (v : UInt32) : (writeUint32 v).length = 4 := length_leBytes 4 _
@[simp] theorem length_writeUint16 (v : UInt16) : (writeUint16 v).length = 2 := length_leBytes 2 _
@[simp] theorem length_writeUint8 (v : UInt8) : (writeUint8 v).length = 1 := rfl

/-- The padding of a size to a multiple of four, as every writer computes it. -/
def padding (size : UInt32) : UInt32 := if size &&& 3 ≠ 0 then 4 - (size &&& 3) else 0

theorem toNat_padding (size : UInt32) : (padding size).toNat = (4 - size.toNat % 4) % 4 := by
  have hand : (size &&& 3).toNat = size.toNat % 4 := by
    have h3 : (3 : UInt32).toNat = 2 ^ 2 - 1 := rfl
    rw [UInt32.toNat_and, h3, Nat.and_two_pow_sub_one_eq_mod]
  unfold padding
  split
  · next hne =>
    have hpos : (size &&& 3).toNat ≠ 0 := fun h => hne (UInt32.toNat_inj.mp h)
    have hle : size &&& 3 ≤ 4 := by
      rw [UInt32.le_iff_toNat_le, hand]
      show size.toNat % 4 ≤ 4
      omega
    rw [UInt32.toNat_sub_of_le _ _ hle, hand]
    show 4 - size.toNat % 4 = _
    omega
  · next heq =>
    have hz : (size &&& 3).toNat = 0 := by
      rw [not_not.mp heq]
      rfl
    show 0 = _
    omega

/-- A reader takes its value off the front of the file; `none` where the file ends too early and the
source would use what its buffer happened to hold. -/
abbrev Reader (α : Type) := StateT Bytes Option α

def readBytes (n : ℕ) : Reader Bytes := fun bs =>
  if n ≤ bs.length then some (bs.take n, bs.drop n) else none

theorem reader_bind {α β : Type} (x : Reader α) (f : α → Reader β) (bs : Bytes) :
    (x >>= f) bs = (x bs).bind fun r => f r.1 r.2 := rfl

def readUint32 : Reader UInt32 := do return UInt32.ofNat (ofLE (← readBytes 4))
def readUint16 : Reader UInt16 := do return UInt16.ofNat (ofLE (← readBytes 2))
def readUint8 : Reader UInt8 := do return UInt8.ofNat (ofLE (← readBytes 1))

theorem readBytes_append (front rest : Bytes) : readBytes front.length (front ++ rest) = some (front, rest) := by
  simp [readBytes]

theorem readBytes_eq_some {n : ℕ} {bs front rest : Bytes} (h : readBytes n bs = some (front, rest)) :
    bs = front ++ rest ∧ front.length = n := by
  unfold readBytes at h
  split at h
  · next hn =>
    obtain ⟨rfl, rfl⟩ := Prod.mk.inj (Option.some.inj h)
    exact ⟨(List.take_append_drop n bs).symm, by rw [List.length_take]; omega⟩
  · cases h

section
variable {β : Type} {n : ℕ} {decode : Bytes → β} {write : β → Bytes}

theorem read_write (hlen : ∀ v, (write v).length = n) (hdecode : ∀ v, decode (write v) = v) (v : β) (rest : Bytes) :
    (do return decode (← readBytes n) : Reader β) (write v ++ rest) = some (v, rest) := by
  have h := readBytes_append (write v) rest
  rw [hlen] at h
  rw [reader_bind, h, Option.bind_some, hdecode]
  rfl

theorem read_append {α : Type} (hlen : ∀ v, (write v).length = n) (hdecode : ∀ v, decode (write v) = v)
    (k : β → Reader α) (v : β) (rest : Bytes) :
    ((do return decode (← readBytes n) : Reader β) >>= k) (write v ++ rest) = k v rest := by
  rw [reader_bind, read_write hlen hdecode, Option.bind_some]

/-- What a successful read took off the front is what the writer would put there. -/
theorem read_bind {α : Type} (hlen : ∀ v, (write v).length = n) (hdecode : ∀ v, decode (write v) = v)
    (hwrite : ∀ front, front.length = n → write (decode front) = front) {k : β → Reader α} {bs : Bytes} {r : α × Bytes} :
    ((do return decode (← readBytes n) : Reader β) >>= k) bs = some r ↔
      ∃ v rest, bs = write v ++ rest ∧ k v rest = some r := by
  constructor
  · intro h
    rw [reader_bind] at h
    obtain ⟨⟨v, rest⟩, h1, h2⟩ := Option.bind_eq_some_iff.mp h
    obtain ⟨⟨front, rest'⟩, h3, h4⟩ := Option.bind_eq_some_iff.mp h1
    obtain ⟨rfl, hfront⟩ := readBytes_eq_some h3
    obtain ⟨rfl, rfl⟩ := Prod.mk.inj (Option.some.inj h4)
    exact ⟨_, _, by rw [hwrite front hfront], h2⟩
  · rintro ⟨v, rest, rfl, h⟩
    rwa [read_append hlen hdecode]

end

theorem decode_writeUint32 (v : UInt32) : UInt32.ofNat (ofLE (writeUint32 v)) = v := by
  rw [writeUint32, ofLE_leBytes_of_lt (by norm_num; exact v.toNat_lt), UInt32.ofNat_toNat]

theorem decode_writeUint16 (v : UInt16) : UInt16.ofNat (ofLE (writeUint16 v)) = v := by
  rw [writeUint16, ofLE_leBytes_of_lt (by norm_num; exact v.toNat_lt), UInt16.ofNat_toNat]

theorem decode_writeUint8 (v : UInt8) : UInt8.ofNat (ofLE (writeUint8 v)) = v := by simp [writeUint8, ofLE]

theorem readUint32_write (v : UInt32) (rest : Bytes) : readUint32 (writeUint32 v ++ rest) = some (v, rest) :=
  read_write length_writeUint32 decode_writeUint32 v rest

variable {α : Type}

theorem readUint32_bind {k : UInt32 → Reader α} {bs : Bytes} {r : α × Bytes} :
    (readUint32 >>= k) bs = some r ↔ ∃ v rest, bs = writeUint32 v ++ rest ∧ k v rest = some r := by
  refine read_bind length_writeUint32 decode_writeUint32 fun front hfront => ?_
  have hlt : ofLE front < 2 ^ 32 := by simpa [hfront] using ofLE_lt front
  rw [writeUint32, UInt32.toNat_ofNat', Nat.mod_eq_of_lt hlt, ← hfront, leBytes_ofLE]

theorem readUint16_bind {k : UInt16 → Reader α} {bs : Bytes} {r : α × Bytes} :
    (readUint16 >>= k) bs = some r ↔ ∃ v rest, bs = writeUint16 v ++ rest ∧ k v rest = some r := by
  refine read_bind length_writeUint16 decode_writeUint16 fun front hfront => ?_
  have hlt : ofLE front < 2 ^ 16 := by simpa [hfront] using ofLE_lt front
  rw [writeUint16, UInt16.toNat_ofNat', Nat.mod_eq_of_lt hlt, ← hfront, leBytes_ofLE]

theorem readUint8_bind {k : UInt8 → Reader α} {bs : Bytes} {r : α × Bytes} :
    (readUint8 >>= k) bs = some r ↔ ∃ v rest, bs = writeUint8 v ++ rest ∧ k v rest = some r := by
  refine read_bind length_writeUint8 decode_writeUint8 fun front hfront => ?_
  obtain ⟨b, rfl⟩ := List.length_eq_one_iff.mp hfront
  simp [writeUint8, ofLE]

/-! ### The header -/

structure E32ImageHeader where
  uid1 : UInt32
  uid2 : UInt32
  uid3 : UInt32
  uidChecksum : UInt32
  signature : UInt32
  headerCrc : UInt32
  moduleVersion : UInt32
  compressionType : UInt32
  toolsVersion : UInt32
  timeLo : UInt32
  timeHi : UInt32
  flags : UInt32
  codeSize : Int32
  dataSize : Int32
  heapSizeMin : Int32
  heapSizeMax : Int32
  stackSize : Int32
  bssSize : Int32
  entryPoint : UInt32
  codeBase : UInt32
  dataBase : UInt32
  dllRefTableCount : Int32
  exportDirOffset : UInt32
  exportDirCount : Int32
  textSize : Int32
  codeOffset : UInt32
  dataOffset : UInt32
  importOffset : UInt32
  codeRelocOffset : UInt32
  dataRelocOffset : UInt32
  processPriority : UInt16
  cpuIdentifier : UInt16
  deriving DecidableEq

structure E32ImageHeaderComp where
  uncompressedSize : UInt32
  deriving DecidableEq

/-- `caps0` and `caps1` are the array `caps`, `exportDesc` the array of one byte. -/
structure E32ImageHeaderV where
  secureId : UInt32
  vendorId : UInt32
  caps0 : UInt32
  caps1 : UInt32
  exceptionDescriptor : UInt32
  spare2 : UInt32
  exportDescSize : UInt16
  exportDescType : UInt8
  exportDesc : UInt8
  deriving DecidableEq

/-- The three structures a tool passes around together. -/
structure Headers where
  header : E32ImageHeader
  headerComp : E32ImageHeaderComp
  headerV : E32ImageHeaderV
  deriving DecidableEq

/-- `memset(&header, 0, sizeof(header))`. -/
def E32ImageHeader.cleared : E32ImageHeader :=
  ⟨0, 0, 0, 0, 0, 0, 0, 0, 0, 0, 0, 0, 0, 0, 0, 0, 0, 0, 0, 0, 0, 0, 0, 0, 0, 0, 0, 0, 0, 0, 0, 0⟩

def KImageHWFloatMask : UInt32 := 0x00f00000
def KImageHWFloat_VFPv2 : UInt32 := 0x00100000
def KImageImpFmt_ELF : UInt32 := 0x10000000
def KImageHdrFmt_V : UInt32 := 0x02000000
def KImageEpt_Eka2 : UInt32 := 0x00000020
def KImageABI_EABI : UInt32 := 0x00000008
def KImageNoCallEntryPoint : UInt32 := 0x00000002
def KImageDll : UInt32 := 0x00000001
def KImageOldJFlag : UInt32 := 0x00000008
def KImageUnpaged : UInt32 := 0x00000100
def KImagePaged : UInt32 := 0x00000200
def KImageDebuggable : UInt32 := 0x00000800
def KImageDataUnpaged : UInt32 := 0x00001000
def KImageDataPaged : UInt32 := 0x00002000
def KImageSMPSafe : UInt32 := 0x00004000
def EPriorityForeground : UInt16 := 350
def ECpuArmV4 : UInt16 := 0x2000
def ECpuArmV5 : UInt16 := 0x2001
def KImageHdr_ExpD_NoHoles : UInt8 := 0x00
def KImageHdr_ExpD_FullBitmap : UInt8 := 0x01
def KImageCrcInitialiser : UInt32 := 0xc90fdaa2
def KTextRelocType : UInt16 := 0x1000
def KDataRelocType : UInt16 := 0x2000
def KUidCompressionDeflate : UInt32 := 0x101f7afc

/-- The size of the header. -/
def CRCSIZE : ℕ := 0x9c

/-- The first seven fields, in front of `compressionType`. -/
def writeHeadersFront (header : E32ImageHeader) : Bytes :=
  writeUint32 header.uid1 ++ writeUint32 header.uid2 ++ writeUint32 header.uid3 ++
  writeUint32 header.uidChecksum ++ writeUint32 header.signature ++ writeUint32 header.headerCrc ++
  writeUint32 header.moduleVersion

/-- What follows `compressionType`. -/
def writeHeadersBack (header : E32ImageHeader) (headerComp : E32ImageHeaderComp)
    (headerV : E32ImageHeaderV) : Bytes :=
  writeUint32 header.toolsVersion ++ writeUint32 header.timeLo ++ writeUint32 header.timeHi ++
  writeUint32 header.flags ++ writeUint32 header.codeSize.toUInt32 ++ writeUint32 header.dataSize.toUInt32 ++
  writeUint32 header.heapSizeMin.toUInt32 ++ writeUint32 header.heapSizeMax.toUInt32 ++
  writeUint32 header.stackSize.toUInt32 ++ writeUint32 header.bssSize.toUInt32 ++
  writeUint32 header.entryPoint ++ writeUint32 header.codeBase ++ writeUint32 header.dataBase ++
  writeUint32 header.dllRefTableCount.toUInt32 ++ writeUint32 header.exportDirOffset ++
  writeUint32 header.exportDirCount.toUInt32 ++ writeUint32 header.textSize.toUInt32 ++
  writeUint32 header.codeOffset ++ writeUint32 header.dataOffset ++ writeUint32 header.importOffset ++
  writeUint32 header.codeRelocOffset ++ writeUint32 header.dataRelocOffset ++
  writeUint16 header.processPriority ++ writeUint16 header.cpuIdentifier ++
  writeUint32 headerComp.uncompressedSize ++ writeUint32 headerV.secureId ++ writeUint32 headerV.vendorId ++
  writeUint32 headerV.caps0 ++ writeUint32 headerV.caps1 ++ writeUint32 headerV.exceptionDescriptor ++
  writeUint32 headerV.spare2 ++ writeUint16 headerV.exportDescSize ++ writeUint8 headerV.exportDescType ++
  writeUint8 headerV.exportDesc

def writeHeaders (h : Headers) : Bytes :=
  writeHeadersFront h.header ++ writeUint32 h.header.compressionType ++
    writeHeadersBack h.header h.headerComp h.headerV

/-- `int32_t` out of a file: the conversion of `readUint32`. -/
def readInt32 : Reader Int32 := do return (← readUint32).toInt32

def readHeaders : Reader Headers := do
  let uid1 ← readUint32
  let uid2 ← readUint32
  let uid3 ← readUint32
  let uidChecksum ← readUint32
  let signature ← readUint32
  let headerCrc ← readUint32
  let moduleVersion ← readUint32
  let compressionType ← readUint32
  let toolsVersion ← readUint32
  let timeLo ← readUint32
  let timeHi ← readUint32
  let flags ← readUint32
  let codeSize ← readInt32
  let dataSize ← readInt32
  let heapSizeMin ← readInt32
  let heapSizeMax ← readInt32
  let stackSize ← readInt32
  let bssSize ← readInt32
  let entryPoint ← readUint32
  let codeBase ← readUint32
  let dataBase ← readUint32
  let dllRefTableCount ← readInt32
  let exportDirOffset ← readUint32
  let exportDirCount ← readInt32
  let textSize ← readInt32
  let codeOffset ← readUint32
  let dataOffset ← readUint32
  let importOffset ← readUint32
  let codeRelocOffset ← readUint32
  let dataRelocOffset ← readUint32
  let processPriority ← readUint16
  let cpuIdentifier ← readUint16
  let uncompressedSize ← readUint32
  let secureId ← readUint32
  let vendorId ← readUint32
  let caps0 ← readUint32
  let caps1 ← readUint32
  let exceptionDescriptor ← readUint32
  let spare2 ← readUint32
  let exportDescSize ← readUint16
  let exportDescType ← readUint8
  let exportDesc ← readUint8
  return ⟨⟨uid1, uid2, uid3, uidChecksum, signature, headerCrc, moduleVersion, compressionType, toolsVersion,
    timeLo, timeHi, flags, codeSize, dataSize, heapSizeMin, heapSizeMax, stackSize, bssSize, entryPoint,
    codeBase, dataBase, dllRefTableCount, exportDirOffset, exportDirCount, textSize, codeOffset, dataOffset,
    importOffset, codeRelocOffset, dataRelocOffset, processPriority, cpuIdentifier⟩, ⟨uncompressedSize⟩,
    ⟨secureId, vendorId, caps0, caps1, exceptionDescriptor, spare2, exportDescSize, exportDescType, exportDesc⟩⟩

theorem readInt32_bind {k : Int32 → Reader α} {bs : Bytes} {r : α × Bytes} :
    (readInt32 >>= k) bs = some r ↔ ∃ v : Int32, ∃ rest, bs = writeUint32 v.toUInt32 ++ rest ∧ k v rest = some r := by
  have h : (readInt32 >>= k) bs = (readUint32 >>= fun v => k v.toInt32) bs := by
    simp [readInt32]
  rw [h, readUint32_bind]
  constructor
  · rintro ⟨v, rest, rfl, hk⟩
    exact ⟨v.toInt32, rest, by simp, hk⟩
  · rintro ⟨v, rest, rfl, hk⟩
    exact ⟨v.toUInt32, rest, rfl, by simpa using hk⟩

theorem readUint32_append (k : UInt32 → Reader α) (v : UInt32) (rest : Bytes) :
    (readUint32 >>= k) (writeUint32 v ++ rest) = k v rest :=
  read_append length_writeUint32 decode_writeUint32 k v rest

theorem readUint16_append (k : UInt16 → Reader α) (v : UInt16) (rest : Bytes) :
    (readUint16 >>= k) (writeUint16 v ++ rest) = k v rest :=
  read_append length_writeUint16 decode_writeUint16 k v rest

theorem readUint8_append (k : UInt8 → Reader α) (v : UInt8) (rest : Bytes) :
    (readUint8 >>= k) (writeUint8 v ++ rest) = k v rest :=
  read_append length_writeUint8 decode_writeUint8 k v rest

theorem readInt32_append (k : Int32 → Reader α) (v : Int32) (rest : Bytes) :
    (readInt32 >>= k) (writeUint32 v.toUInt32 ++ rest) = k v rest := by
  have h := readUint32_append (fun u => k u.toInt32) v.toUInt32 rest
  simpa [readInt32] using h

/-- **Reading back.**  Whatever stands behind the header, its fields are read as they were written. -/
theorem readHeaders_write (h : Headers) (rest : Bytes) : readHeaders (writeHeaders h ++ rest) = some (h, rest) := by
  unfold readHeaders writeHeaders writeHeadersFront writeHeadersBack
  simp only [List.append_assoc, readUint32_append, readInt32_append, readUint16_append, readUint8_append]
  rfl

/-- Headers that were read are written back as they were. -/
theorem eq_writeHeaders {bs rest : Bytes} {h : Headers} (hr : readHeaders bs = some (h, rest)) :
    bs = writeHeaders h ++ rest := by
  unfold readHeaders at hr
  obtain ⟨v1, r1, h1, hr⟩ := readUint32_bind.mp hr
  obtain ⟨v2, r2, h2, hr⟩ := readUint32_bind.mp hr
  obtain ⟨v3, r3, h3, hr⟩ := readUint32_bind.mp hr
  obtain ⟨v4, r4, h4, hr⟩ := readUint32_bind.mp hr
  obtain ⟨v5, r5, h5, hr⟩ := readUint32_bind.mp hr
  obtain ⟨v6, r6, h6, hr⟩ := readUint32_bind.mp hr
  obtain ⟨v7, r7, h7, hr⟩ := readUint32_bind.mp hr
  obtain ⟨v8, r8, h8, hr⟩ := readUint32_bind.mp hr
  obtain ⟨v9, r9, h9, hr⟩ := readUint32_bind.mp hr
  obtain ⟨v10, r10, h10, hr⟩ := readUint32_bind.mp hr
  obtain ⟨v11, r11, h11, hr⟩ := readUint32_bind.mp hr
  obtain ⟨v12, r12, h12, hr⟩ := readUint32_bind.mp hr
  obtain ⟨v13, r13, h13, hr⟩ := readInt32_bind.mp hr
  obtain ⟨v14, r14, h14, hr⟩ := readInt32_bind.mp hr
  obtain ⟨v15, r15, h15, hr⟩ := readInt32_bind.mp hr
  obtain ⟨v16, r16, h16, hr⟩ := readInt32_bind.mp hr
  obtain ⟨v17, r17, h17, hr⟩ := readInt32_bind.mp hr
  obtain ⟨v18, r18, h18, hr⟩ := readInt32_bind.mp hr
  obtain ⟨v19, r19, h19, hr⟩ := readUint32_bind.mp hr
  obtain ⟨v20, r20, h20, hr⟩ := readUint32_bind.mp hr
  obtain ⟨v21, r21, h21, hr⟩ := readUint32_bind.mp hr
  obtain ⟨v22, r22, h22, hr⟩ := readInt32_bind.mp hr
  obtain ⟨v23, r23, h23, hr⟩ := readUint32_bind.mp hr
  obtain ⟨v24, r24, h24, hr⟩ := readInt32_bind.mp hr
  obtain ⟨v25, r25, h25, hr⟩ := readInt32_bind.mp hr
  obtain ⟨v26, r26, h26, hr⟩ := readUint32_bind.mp hr
  obtain ⟨v27, r27, h27, hr⟩ := readUint32_bind.mp hr
  obtain ⟨v28, r28, h28, hr⟩ := readUint32_bind.mp hr
  obtain ⟨v29, r29, h29, hr⟩ := readUint32_bind.mp hr
  obtain ⟨v30, r30, h30, hr⟩ := readUint32_bind.mp hr
  obtain ⟨v31, r31, h31, hr⟩ := readUint16_bind.mp hr
  obtain ⟨v32, r32, h32, hr⟩ := readUint16_bind.mp hr
  obtain ⟨v33, r33, h33, hr⟩ := readUint32_bind.mp hr
  obtain ⟨v34, r34, h34, hr⟩ := readUint32_bind.mp hr
  obtain ⟨v35, r35, h35, hr⟩ := readUint32_bind.mp hr
  obtain ⟨v36, r36, h36, hr⟩ := readUint32_bind.mp hr
  obtain ⟨v37, r37, h37, hr⟩ := readUint32_bind.mp hr
  obtain ⟨v38, r38, h38, hr⟩ := readUint32_bind.mp hr
  obtain ⟨v39, r39, h39, hr⟩ := readUint32_bind.mp hr
  obtain ⟨v40, r40, h40, hr⟩ := readUint16_bind.mp hr
  obtain ⟨v41, r41, h41, hr⟩ := readUint8_bind.mp hr
  obtain ⟨v42, r42, h42, hr⟩ := readUint8_bind.mp hr
  obtain ⟨rfl, rfl⟩ := Prod.mk.inj (Option.some.inj hr)
  rw [h1, h2, h3, h4, h5, h6, h7, h8, h9, h10, h11, h12, h13, h14, h15, h16, h17, h18, h19, h20, h21,
    h22, h23, h24, h25, h26, h27, h28, h29, h30, h31, h32, h33, h34, h35, h36, h37, h38, h39, h40, h41,
    h42]
  unfold writeHeaders writeHeadersFront writeHeadersBack
  simp only [List.append_assoc]

@[simp] theorem length_writeHeadersFront (header : E32ImageHeader) : (writeHeadersFront header).length = 0x1c := by
  unfold writeHeadersFront
  simp only [List.length_append, length_writeUint32]

@[simp] theorem length_writeHeaders (h : Headers) : (writeHeaders h).length = CRCSIZE := by
  unfold writeHeaders writeHeadersBack CRCSIZE
  simp only [List.length_append, length_writeHeadersFront, length_writeUint32, length_writeUint16,
    length_writeUint8]

/-! ### Checksums -/

def uidCrc (uid1 uid2 uid3 : UInt32) : UInt32 :=
  let buf1 := [(uid1 >>> 8).toUInt8, (uid1 >>> 24).toUInt8, (uid2 >>> 8).toUInt8, (uid2 >>> 24).toUInt8,
    (uid3 >>> 8).toUInt8, (uid3 >>> 24).toUInt8]
  let buf2 := [uid1.toUInt8, (uid1 >>> 16).toUInt8, uid2.toUInt8, (uid2 >>> 16).toUInt8, uid3.toUInt8,
    (uid3 >>> 16).toUInt8]
  let crc1 := crcSlow buf1 6
  let crc2 := crcSlow buf2 6
  (crc1.toUInt32 <<< 16) ||| crc2.toUInt32

def Headers.withCrc (h : Headers) (crc : UInt32) : Headers :=
  { h with header := { h.header with headerCrc := crc } }

@[simp] theorem Headers.withCrc_withCrc (h : Headers) (c d : UInt32) : (h.withCrc c).withCrc d = h.withCrc d := rfl

section

variable (crc32 : UInt32 → Bytes → UInt32)

/-- The CRC of a header: taken while its own field holds the initial value. -/
def headerCrcOf (h : Headers) : UInt32 := ~~~ crc32 0xffffffff (writeHeaders (h.withCrc KImageCrcInitialiser))

/-- Both checksums of a header are those of its own contents. -/
structure Headers.Sound (h : Headers) : Prop where
  uids : h.header.uidChecksum = uidCrc h.header.uid1 h.header.uid2 h.header.uid3
  crc : h.header.headerCrc = headerCrcOf crc32 h

/-- The header a file starts with is sound. -/
def SoundImage (file : Bytes) : Prop := ∃ h rest, readHeaders file = some (h, rest) ∧ h.Sound crc32

theorem soundImage_write {h : Headers} {rest : Bytes} : SoundImage crc32 (writeHeaders h ++ rest) ↔ h.Sound crc32 := by
  constructor
  · rintro ⟨h', rest', hr, hs⟩
    rw [readHeaders_write] at hr
    obtain ⟨rfl, -⟩ := Prod.mk.inj (Option.some.inj hr)
    exact hs
  · intro hs
    exact ⟨h, rest, readHeaders_write h rest, hs⟩

variable (DeflateCompress : Bytes → Bytes)

/-- `len` of `finalizeE32Image`: 32 bits. -/
def bodyLength (out : Bytes) : ℕ := (UInt32.ofNat out.length - UInt32.ofNat CRCSIZE).toNat

/-- The file `out` after `finalizeE32Image`. -/
def finalizeE32Image (out : Bytes) (h : Headers) (compress : Bool) : Bytes :=
  let h := h.withCrc KImageCrcInitialiser
  let out := writeAt out 0 (writeHeaders h)
  let buf := readAt out 0 CRCSIZE
  let h := h.withCrc (~~~ crc32 0xffffffff buf)
  let out := writeAt out 0 (writeHeaders h)
  if h.header.compressionType = KUidCompressionDeflate ∧ compress then
    readAt out 0 CRCSIZE ++ DeflateCompress (readAt out CRCSIZE (bodyLength out))
  else
    out

/-- What `finalizeE32Image` leaves behind the header. -/
def finalBody (out : Bytes) (h : Headers) (compress : Bool) : Bytes :=
  if h.header.compressionType = KUidCompressionDeflate ∧ compress then
    DeflateCompress ((out.drop CRCSIZE).take
      (bodyLength (writeHeaders (h.withCrc (headerCrcOf crc32 h)) ++ out.drop CRCSIZE)))
  else
    out.drop CRCSIZE

theorem writeAt_header (out : Bytes) (h : Headers) :
    writeAt out 0 (writeHeaders h) = writeHeaders h ++ out.drop CRCSIZE := by
  rw [writeAt_zero, length_writeHeaders]

theorem readAt_header (h : Headers) (rest : Bytes) : readAt (writeHeaders h ++ rest) 0 CRCSIZE = writeHeaders h := by
  rw [readAt_zero, ← length_writeHeaders h, List.take_left]

theorem drop_header (h : Headers) (rest : Bytes) : (writeHeaders h ++ rest).drop CRCSIZE = rest := by
  rw [← length_writeHeaders h, List.drop_left]

/-- `finalizeE32Image` only replaces the header, with its CRC, and compresses what stands behind it. -/
theorem finalizeE32Image_eq (out : Bytes) (h : Headers) (compress : Bool) :
    finalizeE32Image crc32 DeflateCompress out h compress =
      writeHeaders (h.withCrc (headerCrcOf crc32 h)) ++ finalBody crc32 DeflateCompress out h compress := by
  have htype (c : UInt32) : (h.withCrc c).header.compressionType = h.header.compressionType := rfl
  unfold finalizeE32Image finalBody headerCrcOf
  simp only [writeAt_header, readAt_header, Headers.withCrc_withCrc, htype, drop_header]
  by_cases hc : h.header.compressionType = KUidCompressionDeflate ∧ compress
  · rw [if_pos hc, if_pos hc, readAt, drop_header]
  · rw [if_neg hc, if_neg hc]

theorem finalizeE32Image_sound (out : Bytes) (h : Headers) (compress : Bool) :
    SoundImage crc32 (finalizeE32Image crc32 DeflateCompress out h compress) ↔
      h.header.uidChecksum = uidCrc h.header.uid1 h.header.uid2 h.header.uid3 := by
  rw [finalizeE32Image_eq, soundImage_write]
  constructor
  · intro hs
    exact hs.uids
  · intro hu
    exact ⟨hu, rfl⟩

end

end GnuPoc.E32
