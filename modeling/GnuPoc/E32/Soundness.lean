import GnuPoc.E32.Elftran

/-!
# GnuPoc.E32.Soundness — the checksums in the images that are written

elf2e32 and elftran compute the checksum of the UIDs behind the options and write the header through
`finalizeE32Image`.  An in-place edit keeps the checksum it finds, and compress and decompress patch the
compression type in the bytes of the header without its CRC.
-/

namespace GnuPoc.E32

open GnuPoc.Lib

/-! ### `compress` and `decompress` -/

/-- The four bytes at `0x1C`. -/
def compressionOf (header : Bytes) : UInt32 := UInt32.ofNat (ofLE (readAt header 0x1c 4))

def setCompressionType (header : Bytes) (type : UInt32) : Bytes := writeAt header 0x1c (writeUint32 type)

/-- What both programs read: the header and the body.  A header that is cut off is read over what the
buffer held and is not modelled. -/
def readImage (file : Bytes) : Except Stop (Bytes × Bytes) :=
  if CRCSIZE ≤ file.length then .ok (readAt file 0 CRCSIZE, readAt file CRCSIZE (bodyLength file))
  else .error .crashes

/-- `main` of compress: the file `argv[2]`. -/
def compress (DeflateCompress : Bytes → Bytes) (file : Bytes) : Except Stop Bytes := do
  let (header, data) ← readImage file
  if compressionOf header ≠ 0 then .error (.returns 1)
  else return setCompressionType header KUidCompressionDeflate ++ DeflateCompress data

/-- `main` of decompress; `inflate` is the `ReadL` loop over a `CInflater`. -/
def decompress (inflate : Bytes → Except Stop Bytes) (file : Bytes) : Except Stop Bytes := do
  let (header, data) ← readImage file
  if compressionOf header ≠ KUidCompressionDeflate then .error (.returns 1)
  else return setCompressionType header 0 ++ (← inflate data)

/-! ### The UIDs through a build -/

/-- The UIDs and their checksum. -/
def E32ImageHeader.uids (h : E32ImageHeader) : UInt32 × UInt32 × UInt32 × UInt32 :=
  (h.uid1, h.uid2, h.uid3, h.uidChecksum)

theorem foldl_uids {α : Type} {f : E32ImageHeader → α → E32ImageHeader} (hf : ∀ h a, (f h a).uids = h.uids)
    (l : List α) (h : E32ImageHeader) : (l.foldl f h).uids = h.uids := by
  induction l generalizing h with
  | nil => rfl
  | cons a l ih => rw [List.foldl_cons, ih, hf]

theorem foldl_image_uids {α : Type} {f : Image → α → Image} (hf : ∀ i a, (f i a).header.uids = i.header.uids)
    (l : List α) (i : Image) : (l.foldl f i).header.uids = i.header.uids := by
  induction l generalizing i with
  | nil => rfl
  | cons a l ih => rw [List.foldl_cons, ih, hf]

theorem readProgramHeaders_uids (phdrs : List Elf32_Phdr) (h : E32ImageHeader) :
    (readProgramHeaders phdrs h).uids = h.uids := by
  refine foldl_uids (fun h phdr => ?_) phdrs h
  split
  · rfl
  · split <;> rfl

theorem writeCodeSection_uids (i : Image) (s : Elf_Scn) : (writeCodeSection i s).header.uids = i.header.uids := by
  unfold writeCodeSection
  split
  · rfl
  · split
    · simp only
      split <;> rfl
    · rfl

theorem writeCode_uids (sections : List Elf_Scn) (i : Image) :
    (writeCode sections i).header.uids = i.header.uids :=
  foldl_image_uids writeCodeSection_uids sections i

theorem writeDataSection_uids (i : Image) (s : Elf_Scn) : (writeDataSection i s).header.uids = i.header.uids := by
  unfold writeDataSection
  split
  · rfl
  · split <;> rfl

theorem writeData_uids (sections : List Elf_Scn) (i : Image) :
    (writeData sections i).header.uids = i.header.uids :=
  foldl_image_uids writeDataSection_uids sections i

theorem writeExports_uids (l : Elf.ExportList) (i : Image) : (writeExports l i).1.header.uids = i.header.uids := by
  unfold writeExports
  split <;> rfl

theorem layout_uids (p : Prepared) : (layout p).1.header.uids = p.headers.header.uids := by
  unfold layout
  split
  · rw [writeData_uids, writeExports_uids, writeCode_uids]
  · rw [writeData_uids, writeCode_uids]

theorem writeTables_uids (sorts : Sorts) (doSort padsize : Bool) (h : E32ImageHeader) (s : RelocState) :
    (writeTables sorts doSort padsize h s).1.header.uids = h.uids := by
  unfold writeTables
  split <;> rfl

theorem buildImage_uids {env : Environment} {p : Prepared} {out : Bytes} {h : Headers}
    (hb : buildImage env p = .ok (out, h)) : h.header.uids = p.headers.header.uids := by
  obtain ⟨s, -, hb⟩ := bind_eq_ok.mp hb
  cases hb
  show (writeTables _ _ _ _ _).1.header.uids = _
  rw [writeTables_uids]
  exact layout_uids p

theorem readExportSymbol_uids {stack out : Bytes} {strtab : Elf_Data} {h h' : E32ImageHeader} {sym : Elf32_Sym}
    (hs : readExportSymbol stack out strtab h sym = .ok h') : h'.uids = h.uids := by
  obtain ⟨table, -, hs⟩ := bind_eq_ok.mp hs
  split at hs
  · cases hs
    rfl
  · obtain ⟨size, -, hs⟩ := bind_eq_ok.mp hs
    split at hs
    · cases hs
      rfl
    · cases hs
      rfl

theorem foldlM_uids {stack out : Bytes} {strtab : Elf_Data} {symtab : List Elf32_Sym} {h h' : E32ImageHeader}
    (hs : symtab.foldlM (readExportSymbol stack out strtab) h = .ok h') : h'.uids = h.uids := by
  induction symtab generalizing h with
  | nil =>
    cases hs
    rfl
  | cons sym symtab ih =>
    rw [List.foldlM_cons] at hs
    obtain ⟨h₁, h1, hs⟩ := bind_eq_ok.mp hs
    rw [ih hs, readExportSymbol_uids h1]

theorem parseDynamic_uids {libelf : Libelf} {stack : Bytes} {junk : UInt32} {elf : Elf} {phdr : Elf32_Phdr}
    {h h' : E32ImageHeader} {s s' : RelocState} (hp : parseDynamic libelf stack junk elf phdr h s = .ok (h', s')) :
    h'.uids = h.uids := by
  obtain ⟨data, -, hp⟩ := bind_eq_ok.mp hp
  obtain ⟨d, -, hp⟩ := bind_eq_ok.mp hp
  split at hp
  · cases hp
    rfl
  · obtain ⟨symbols, -, hp⟩ := bind_eq_ok.mp hp
    obtain ⟨symtab, -, hp⟩ := bind_eq_ok.mp hp
    obtain ⟨strtab, -, hp⟩ := bind_eq_ok.mp hp
    obtain ⟨relocations, -, hp⟩ := bind_eq_ok.mp hp
    obtain ⟨rels, -, hp⟩ := bind_eq_ok.mp hp
    obtain ⟨h₁, hsyms, hp⟩ := bind_eq_ok.mp hp
    obtain ⟨s₁, -, hp⟩ := bind_eq_ok.mp hp
    cases hp
    exact foldlM_uids hsyms

theorem buildTran_uids {env : Environment} {junk : UInt32} {elf : Elf} {headers h : Headers} {out : Bytes}
    (hb : buildTran env junk elf headers = .ok (out, h)) : h.header.uids = headers.header.uids := by
  unfold buildTran at hb
  simp only at hb
  split at hb
  · cases hb
  · obtain ⟨⟨header, s⟩, hdyn, hb⟩ := bind_eq_ok.mp hb
    cases hb
    show (writeTables _ _ _ _ _).1.header.uids = _
    rw [writeTables_uids]
    show header.uids = _
    rw [parseDynamic_uids hdyn, writeData_uids, writeCode_uids, readProgramHeaders_uids]

/-- The checksum is that of the UIDs. -/
def E32ImageHeader.UidsRight (h : E32ImageHeader) : Prop := h.uidChecksum = uidCrc h.uid1 h.uid2 h.uid3

theorem uidsRight_of_uids {h h' : E32ImageHeader} (hu : h'.uids = h.uids) : h'.UidsRight ↔ h.UidsRight := by
  obtain ⟨h1, h2, h3, h4⟩ : h'.uid1 = h.uid1 ∧ h'.uid2 = h.uid2 ∧ h'.uid3 = h.uid3 ∧
      h'.uidChecksum = h.uidChecksum := by
    simpa [E32ImageHeader.uids] using hu
  rw [E32ImageHeader.UidsRight, E32ImageHeader.UidsRight, h1, h2, h3, h4]

theorem setUidChecksum_right (h : Headers) : h.setUidChecksum.header.UidsRight := rfl

theorem prepare_right {env : Environment} {options : List LongOption} {p : Prepared}
    (hp : prepare env options = .ok p) : p.headers.header.UidsRight := by
  obtain ⟨s, -, hp⟩ := bind_eq_ok.mp hp
  split at hp
  · cases hp
  · cases hp
  · split at hp
    · cases hp
    · next elf _ =>
      unfold prepareElf at hp
      simp only at hp
      split at hp
      · cases hp
      · split at hp
        · cases hp
        · cases hp
          exact (uidsRight_of_uids (readProgramHeaders_uids elf.phdrs _)).mpr (setUidChecksum_right s.headers)

/-! ### The images -/

section
variable {env : Environment} {file out : Bytes} {h : Headers} {body : Bytes}

theorem elf2e32_sound {options : List LongOption} (hrun : elf2e32 env options = .ok out) :
    SoundImage env.crc32 out := by
  obtain ⟨p, hp, hrun⟩ := bind_eq_ok.mp hrun
  obtain ⟨⟨body, h⟩, hb, hrun⟩ := bind_eq_ok.mp hrun
  cases hrun
  rw [finalizeE32Image_sound]
  exact (uidsRight_of_uids (buildImage_uids hb)).mpr (prepare_right hp)

theorem elftranCreate_sound {junk : UInt32} {argv : List CString} (hrun : elftranCreate env junk argv = .ok out) :
    SoundImage env.crc32 out := by
  obtain ⟨s, -, hrun⟩ := bind_eq_ok.mp hrun
  split at hrun
  · split at hrun
    · cases hrun
    · obtain ⟨⟨body, h⟩, hb, hrun⟩ := bind_eq_ok.mp hrun
      cases hrun
      rw [finalizeE32Image_sound]
      exact (uidsRight_of_uids (buildTran_uids hb)).mpr (setUidChecksum_right s.headers)
  · cases hrun

/-- The header of an image with the UIDs that the options set. -/
def withUids (argv : List CString) (h : E32ImageHeader) : E32ImageHeader :=
  { h with
    uid1 := (lastSetting (uidSetting "-uid1") argv).getD h.uid1
    uid2 := (lastSetting (uidSetting "-uid2") argv).getD h.uid2
    uid3 := (lastSetting (uidSetting "-uid3") argv).getD h.uid3 }

/-- An option is met that makes elftran write the header back. -/
def ChangesHeaders (argv : List CString) : Prop := (optionsMet argv).any (fun o => (findOption o.1).isSome) = true

theorem elftranEdit_sound_iff {argv : List CString} (hread : readHeaders file = some (h, body))
    (hchange : ChangesHeaders argv) (hrun : elftranEdit env argv file = .ok out) :
    SoundImage env.crc32 out ↔ (withUids argv h.header).UidsRight := by
  obtain ⟨s, hparse, hrun⟩ := bind_eq_ok.mp hrun
  have hmod : s.headersModified = true := by
    rw [parseOptionsFrom_headersModified hparse]
    exact Bool.or_eq_true_iff.mpr (Or.inr hchange)
  split at hrun
  · rw [hread] at hrun
    simp only [hmod, if_true] at hrun
    obtain ⟨s', hparse', hrun⟩ := bind_eq_ok.mp hrun
    cases hrun
    rw [finalizeE32Image_sound]
    have hfields := parseOptions_uidFields hparse'
    have hu : s'.headers.header.uids = (withUids argv h.header).uids :=
      congrArg (fun u : UidFields => (u.uid1, u.uid2, u.uid3, u.uidChecksum)) hfields
    exact uidsRight_of_uids hu
  · cases hrun

/-- The headers with another compression type. -/
def Headers.withCompression (h : Headers) (type : UInt32) : Headers :=
  { h with header := { h.header with compressionType := type } }

/-- The UIDs have their checksum, and the CRC is already that of the header with the other type. -/
def Headers.PatchReady (crc32 : UInt32 → Bytes → UInt32) (h : Headers) (type : UInt32) : Prop :=
  h.header.UidsRight ∧ h.header.headerCrc = headerCrcOf crc32 (h.withCompression type)

theorem setCompressionType_write (h : Headers) (type : UInt32) :
    setCompressionType (writeHeaders h) type = writeHeaders (h.withCompression type) := by
  have hlen : (writeUint32 type).length = (writeUint32 h.header.compressionType).length := by simp
  have hmid := writeAt_middle (a := writeHeadersFront h.header)
    (writeHeadersBack h.header h.headerComp h.headerV) hlen
  rw [length_writeHeadersFront] at hmid
  exact hmid

theorem readImage_eq (hread : readHeaders file = some (h, body)) :
    ∃ data, readImage file = .ok (writeHeaders h, data) := by
  have hfile := eq_writeHeaders hread
  have hlen : CRCSIZE ≤ file.length := by
    rw [hfile, List.length_append, length_writeHeaders]
    omega
  refine ⟨readAt file CRCSIZE (bodyLength file), ?_⟩
  rw [readImage, if_pos hlen]
  congr 2
  rw [hfile, readAt_header]

theorem patched_sound_iff (data : Bytes) (type : UInt32) :
    SoundImage env.crc32 (setCompressionType (writeHeaders h) type ++ data) ↔ h.PatchReady env.crc32 type := by
  rw [setCompressionType_write, soundImage_write]
  exact ⟨fun hs => ⟨hs.uids, hs.crc⟩, fun hs => ⟨hs.1, hs.2⟩⟩

theorem compress_sound_iff (hread : readHeaders file = some (h, body))
    (hrun : compress env.DeflateCompress file = .ok out) :
    SoundImage env.crc32 out ↔ h.PatchReady env.crc32 KUidCompressionDeflate := by
  obtain ⟨data, hdata⟩ := readImage_eq hread
  rw [compress, hdata] at hrun
  obtain ⟨⟨header, data'⟩, heq, hrun⟩ := bind_eq_ok.mp hrun
  cases heq
  simp only at hrun
  split at hrun
  · cases hrun
  · cases hrun
    exact patched_sound_iff _ _

theorem decompress_sound_iff {inflate : Bytes → Except Stop Bytes} (hread : readHeaders file = some (h, body))
    (hrun : decompress inflate file = .ok out) :
    SoundImage env.crc32 out ↔ h.PatchReady env.crc32 0 := by
  obtain ⟨data, hdata⟩ := readImage_eq hread
  rw [decompress, hdata] at hrun
  obtain ⟨⟨header, data'⟩, heq, hrun⟩ := bind_eq_ok.mp hrun
  cases heq
  simp only at hrun
  split at hrun
  · cases hrun
  · obtain ⟨data, -, hrun⟩ := bind_eq_ok.mp hrun
    cases hrun
    exact patched_sound_iff _ _

end

/-- A way to write an image, with what it reads. -/
inductive ImageRun
  | elf2e32 (options : List LongOption)
  | elftranCreate (junk : UInt32) (argv : List CString)
  | elftranEdit (argv : List CString) (file : Bytes)
  | compress (file : Bytes)
  | decompress (file : Bytes)

/-- The image a run writes. -/
def ImageRun.image (env : Environment) (inflate : Bytes → Except Stop Bytes) : ImageRun → Except Stop Bytes
  | elf2e32 options => E32.elf2e32 env options
  | elftranCreate junk argv => E32.elftranCreate env junk argv
  | elftranEdit argv file => E32.elftranEdit env argv file
  | compress file => E32.compress env.DeflateCompress file
  | decompress file => E32.decompress inflate file

/-- The run writes, and the image that it reads has a header. -/
def ImageRun.Writes : ImageRun → Prop
  | elf2e32 _ => True
  | elftranCreate _ _ => True
  | elftranEdit argv file => ChangesHeaders argv ∧ (readHeaders file).isSome
  | compress file => (readHeaders file).isSome
  | decompress file => (readHeaders file).isSome

/-- What an image must bring for the checksums to come out right: an edit needs the UID checksum of the
UIDs after the options, compress and decompress also the CRC of the header after the patch. -/
def ImageRun.Ready (crc32 : UInt32 → Bytes → UInt32) : ImageRun → Prop
  | elf2e32 _ => True
  | elftranCreate _ _ => True
  | elftranEdit argv file => ∀ h body, readHeaders file = some (h, body) → (withUids argv h.header).UidsRight
  | compress file => ∀ h body, readHeaders file = some (h, body) →
    h.PatchReady crc32 KUidCompressionDeflate
  | decompress file => ∀ h body, readHeaders file = some (h, body) → h.PatchReady crc32 0

theorem forall_readHeaders {file body : Bytes} {h : Headers} (hread : readHeaders file = some (h, body))
    (P : Headers → Prop) : (∀ h' body', readHeaders file = some (h', body') → P h') ↔ P h := by
  constructor
  · intro hall
    exact hall h body hread
  · intro hP h' body' hread'
    rw [hread] at hread'
    obtain ⟨rfl, -⟩ := Prod.mk.inj (Option.some.inj hread')
    exact hP

/-- **Checksums of an image.**  Both programs that build an image get them right; an edit, compress and
decompress do exactly when the old image was ready for what they change. -/
theorem image_sound_iff (env : Environment) (inflate : Bytes → Except Stop Bytes) {run : ImageRun} {out : Bytes}
    (hw : run.Writes) (hrun : run.image env inflate = .ok out) :
    SoundImage env.crc32 out ↔ run.Ready env.crc32 := by
  cases run with
  | elf2e32 options => exact iff_of_true (elf2e32_sound hrun) trivial
  | elftranCreate junk argv => exact iff_of_true (elftranCreate_sound hrun) trivial
  | elftranEdit argv file =>
    obtain ⟨hchange, hsome⟩ := hw
    obtain ⟨⟨h, body⟩, hread⟩ := Option.isSome_iff_exists.mp hsome
    rw [elftranEdit_sound_iff hread hchange hrun]
    exact (forall_readHeaders hread fun h => (withUids argv h.header).UidsRight).symm
  | compress file =>
    obtain ⟨⟨h, body⟩, hread⟩ := Option.isSome_iff_exists.mp hw
    rw [compress_sound_iff hread hrun]
    exact (forall_readHeaders hread fun h => h.PatchReady env.crc32 KUidCompressionDeflate).symm
  | decompress file =>
    obtain ⟨⟨h, body⟩, hread⟩ := Option.isSome_iff_exists.mp hw
    rw [decompress_sound_iff hread hrun]
    exact (forall_readHeaders hread fun h => h.PatchReady env.crc32 0).symm

/-! ### Images that show the limits -/

/-- An image with a body of one byte and both checksums right. -/
def soundImage (compressionType : UInt32) : Bytes :=
  finalizeE32Image zlibCrc32 id (imageOf compressionType [0x9c])
    (initialHeaders { E32ImageHeader.cleared with compressionType := compressionType } 0) false

theorem uids_withCrc (h : Headers) (c : UInt32) : (h.withCrc c).header.uids = h.header.uids := rfl

theorem readHeaders_soundImage (compressionType : UInt32) :
    ∃ h body, readHeaders (soundImage compressionType) = some (h, body) ∧ h.header.uids = E32ImageHeader.cleared.uids := by
  rw [soundImage, finalizeE32Image_eq, readHeaders_write]
  exact ⟨_, _, rfl, uids_withCrc _ _⟩

/-- `elftran -uid3 0x1234 image` keeps the checksum of the old UIDs. -/
theorem image_stale_uidChecksum :
    SoundImage zlibCrc32 (soundImage 0) ∧
    ∃ out, (ImageRun.elftranEdit [arg "-uid3", arg "0x1234", arg "image"] (soundImage 0)).image
        (plainEnvironment none id) (fun _ => .error .crashes) = .ok out ∧ ¬ SoundImage zlibCrc32 out := by
  constructor
  · rw [soundImage, finalizeE32Image_sound]
    decide +kernel
  · obtain ⟨out, hrun, -⟩ := exists_of_any
      (r := (ImageRun.elftranEdit [arg "-uid3", arg "0x1234", arg "image"] (soundImage 0)).image
        (plainEnvironment none id) (fun _ => .error .crashes)) (p := fun _ => true) (by decide +kernel)
    obtain ⟨h, body, hread, huids⟩ := readHeaders_soundImage 0
    refine ⟨out, hrun, fun hs => ?_⟩
    have hright := (elftranEdit_sound_iff hread (by unfold ChangesHeaders; decide) hrun).mp hs
    have hset : (withUids [arg "-uid3", arg "0x1234", arg "image"] h.header).uids =
        (withUids [arg "-uid3", arg "0x1234", arg "image"] E32ImageHeader.cleared).uids := by
      simp only [E32ImageHeader.uids, Prod.mk.injEq] at huids
      simp only [E32ImageHeader.uids, withUids, huids]
    rw [uidsRight_of_uids hset] at hright
    exact absurd hright (by unfold E32ImageHeader.UidsRight; decide +kernel)

/-- `elftran -stack 0x5000 image` on a sound image. -/
theorem image_sound_stack :
    ∃ out, (ImageRun.elftranEdit [arg "-stack", arg "0x5000", arg "image"] (soundImage 0)).image
        (plainEnvironment none id) (fun _ => .error .crashes) = .ok out ∧
      (SoundImage (plainEnvironment none id).crc32 out ↔
        (ImageRun.elftranEdit [arg "-stack", arg "0x5000", arg "image"] (soundImage 0)).Ready
          (plainEnvironment none id).crc32) := by
  obtain ⟨out, hrun, -⟩ := exists_of_any
    (r := (ImageRun.elftranEdit [arg "-stack", arg "0x5000", arg "image"] (soundImage 0)).image
      (plainEnvironment none id) (fun _ => .error .crashes)) (p := fun _ => true) (by decide +kernel)
  obtain ⟨h, body, hread, -⟩ := readHeaders_soundImage 0
  have hsome : (readHeaders (soundImage 0)).isSome := by
    rw [hread]
    rfl
  exact ⟨out, hrun, image_sound_iff (plainEnvironment none id) (fun _ => .error .crashes)
    ⟨by unfold ChangesHeaders; decide, hsome⟩ hrun⟩

end GnuPoc.E32
