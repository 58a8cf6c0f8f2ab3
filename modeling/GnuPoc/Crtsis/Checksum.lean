import GnuPoc.Crtsis.Blocks
import GnuPoc.Lib.ByteFile

/-!
# GnuPoc.Crtsis.Checksum — the two checksums of a SIS file

Behind the header every block appends bytes and takes the same bytes into the checksum.  The header goes in as three
pieces, around the two bytes where the checksum is to stand.
-/

namespace GnuPoc.Crtsis

open GnuPoc.Lib

/-- What is appended to the file is taken into the checksum. -/
def Extends (s s' : State) : Prop := ∃ bytes, s'.out = s.out ++ bytes ∧ s'.m_wCheck = Crc s.m_wCheck bytes

theorem Extends.refl (s : State) : Extends s s := ⟨[], (List.append_nil _).symm, rfl⟩

theorem Extends.trans (a b c : State) : Extends a b → Extends b c → Extends a c := by
  rintro ⟨x, hx, hcx⟩ ⟨y, hy, hcy⟩
  exact ⟨x ++ y, by rw [hy, hx, List.append_assoc], by rw [hcy, hcx, Crc_append]⟩

theorem Extends.of_same {s s' : State} (hout : s'.out = s.out) (hcheck : s'.m_wCheck = s.m_wCheck) : Extends s s' :=
  ⟨[], by rw [List.append_nil, hout], hcheck⟩

theorem Extends.recordFrame : RecordFrame Extends where
  refl := Extends.refl
  trans := Extends.trans
  allocate _ := Extends.of_same rfl rfl
  string _ _ := Extends.of_same rfl rfl
  code _ _ := Extends.of_same rfl rfl
  record _ bytes := ⟨bytes, rfl, rfl⟩

theorem writeBody_extends (env : Env) (w : SISWriter) (target : WString) (lines : List Place) (m_stubFile : Bool) :
    Run.Keeps Extends (writeBody env w target lines m_stubFile) := by
  apply Extends.recordFrame.bind (Extends.recordFrame.writeRecords env w lines)
  intro _
  apply Run.Keeps.ite
  · exact fun _ => Extends.recordFrame.pure ()
  · exact fun _ => Extends.recordFrame.WriteCodeL env w target fun _ _ _ => Extends.of_same rfl rfl

/-! ### The header -/

/-- The UIDs as the file has them. -/
def storedUids (w : SISWriter) : Bytes :=
  leBytes 4 w.m_dwUID.toNat ++ leBytes 4 (if w.isUnicode then KUidInstallAppUid1U else KUidInstallAppUid1).toNat ++
    leBytes 4 KUidInstallAppValue.toNat

/-- The CRC of the bytes in odd places above that of the bytes in even places. -/
def uidChecksum (uids : Bytes) : UInt32 :=
  (Crc 0 (everyOther (uids.drop 1))).toUInt32 <<< 16 ||| (Crc 0 (everyOther uids)).toUInt32

theorem length_storedUids (w : SISWriter) : (storedUids w).length = 12 := by
  simp [storedUids]

/-- The header is written, and all of it but its own place is in the checksum. -/
structure Headed (w : SISWriter) (s : State) : Prop where
  exists_out : ∃ hole tail : Bytes, hole.length = 2 ∧ 82 ≤ tail.length ∧
    s.out = storedUids w ++ leBytes 4 (uidChecksum (storedUids w)).toNat ++ hole ++ tail ∧
    s.m_wCheck = Crc 0 (storedUids w ++ leBytes 4 (uidChecksum (storedUids w)).toNat ++ tail)

theorem Headed.extends {w : SISWriter} {s s' : State} (h : Headed w s) : Extends s s' → Headed w s' := by
  rintro ⟨bytes, hout, hcheck⟩
  obtain ⟨hole, tail, hhole, htail, hs, hc⟩ := h.exists_out
  refine ⟨hole, tail ++ bytes, hhole, ?_, ?_, ?_⟩
  · rw [List.length_append]
    omega
  · rw [hout, hs, List.append_assoc]
  · rw [hcheck, hc, ← Crc_append, List.append_assoc]

namespace TInstInstallation

@[simp] theorem uidBytes_flipTInstUID (o : ByteOrder) (h : TInstInstallation) : (h.flipTInstUID o).uidBytes o =
    leBytes 4 h.iThisUID₀.toNat ++ leBytes 4 h.iThisUID₁.toNat ++ leBytes 4 h.iThisUID₂.toNat := by
  simp [flipTInstUID, uidBytes]

theorem bytes_flipTInstInstallation (o : ByteOrder) (h : TInstInstallation) : (h.flipTInstInstallation o).bytes o =
    leBytes 4 h.iThisUID₀.toNat ++ leBytes 4 h.iThisUID₁.toNat ++ leBytes 4 h.iThisUID₂.toNat ++
      leBytes 4 h.iUidChecksum.toNat ++ leBytes 2 h.iChecksum.toNat ++
      (h.flipTInstInstallation o).tailBytes o := by
  simp [flipTInstInstallation, bytes, uidBytes]

theorem length_tailBytes (o : ByteOrder) (h : TInstInstallation) (hspare : h.iSpare2.length = 8) :
    (h.tailBytes o).length = 82 := by
  have hflat : ∀ l : List UInt16, (l.flatMap o.bytes16).length = 2 * l.length := by
    intro l
    induction l with
    | nil => rfl
    | cons v l ih =>
      rw [List.flatMap_cons, List.length_append, ih, ByteOrder.length_bytes16, List.length_cons]
      omega
  unfold tailBytes
  repeat rw [List.length_append]
  rw [hflat, hspare]
  simp

end TInstInstallation

section
variable (env : Env) (w : SISWriter) (lines : List Place) (off : Offsets) (m_dwMaximumSpaceNeeded : UInt32)
  (m_stubFile : Bool)

/-- The header before the last exchange. -/
def completeHeader : TInstInstallation :=
  fillHeader w lines off m_dwMaximumSpaceNeeded m_stubFile { TInstInstallation.zero with
    iThisUID₀ := w.m_dwUID
    iThisUID₁ := if w.isUnicode then KUidInstallAppUid1U else KUidInstallAppUid1
    iThisUID₂ := KUidInstallAppValue
    iUidChecksum := uidChecksum (storedUids w) }

/-- The first fields, exchanged for the checksum of the UIDs. -/
def uidHeader (o : ByteOrder) : TInstInstallation :=
  TInstInstallation.flipTInstUID o { TInstInstallation.zero with
    iThisUID₀ := w.m_dwUID
    iThisUID₁ := if w.isUnicode then KUidInstallAppUid1U else KUidInstallAppUid1
    iThisUID₂ := KUidInstallAppValue }

theorem uidBytes_uidHeader (o : ByteOrder) : (uidHeader w o).uidBytes o = storedUids w :=
  TInstInstallation.uidBytes_flipTInstUID _ _

theorem uidHeader_exchanged (o : ByteOrder) (dwCheck : UInt32) :
    { TInstInstallation.flipTInstUID o { uidHeader w o with iUidChecksum := o.flip32 dwCheck } with
      iUidChecksum := o.flip32 (o.flip32 dwCheck) } =
    { TInstInstallation.zero with
      iThisUID₀ := w.m_dwUID
      iThisUID₁ := if w.isUnicode then KUidInstallAppUid1U else KUidInstallAppUid1
      iThisUID₂ := KUidInstallAppValue
      iUidChecksum := dwCheck } := by
  simp only [uidHeader, TInstInstallation.flipTInstUID, ByteOrder.flip32_flip32]

theorem WriteHeaderL_apply (s : State) :
    (WriteHeaderL env w lines off m_dwMaximumSpaceNeeded m_stubFile s).1 = .ok () ∧
    (WriteHeaderL env w lines off m_dwMaximumSpaceNeeded m_stubFile s).2.out = s.out ++
      ((completeHeader w lines off m_dwMaximumSpaceNeeded m_stubFile).flipTInstInstallation env.order).bytes env.order ∧
    (WriteHeaderL env w lines off m_dwMaximumSpaceNeeded m_stubFile s).2.m_wCheck =
      Crc (Crc (Crc 0 (storedUids w)) (leBytes 4 (uidChecksum (storedUids w)).toNat))
        (((completeHeader w lines off m_dwMaximumSpaceNeeded m_stubFile).flipTInstInstallation
          env.order).tailBytes env.order) := by
  have huids := uidBytes_uidHeader w env.order
  have hhead := uidHeader_exchanged w env.order (uidChecksum ((uidHeader w env.order).uidBytes env.order))
  rw [completeHeader, ← huids, ← hhead, ← ByteOrder.bytes32_flip32 env.order]
  refine ⟨rfl, rfl, ?_⟩
  simp only [WriteHeaderL, UIDCheck, setCheck, addCrc, WriteFile, Run.bind_apply, Run.update_apply, Run.read_apply]
  rfl

end

/-! ### Before the header -/

/-- Only the disk and the memory are used. -/
def Silent (s s' : State) : Prop := s' = { s with disk := s'.disk, allocated := s'.allocated }

theorem Silent.out {s s' : State} (h : Silent s s') : s'.out = s.out := by
  rw [Silent] at h
  rw [h]

theorem Silent.diskFrame : DiskFrame Silent where
  refl _ := rfl
  trans _ _ _ h h' := by
    rw [Silent, h', h]
  allocate _ := rfl
  set _ _ _ := rfl

/-! ### The finished file -/

section
variable (env : Env) (w : SISWriter)

theorem WriteHeaderL_headed (lines : List Place) (off : Offsets) (m_dwMaximumSpaceNeeded : UInt32) (m_stubFile : Bool)
    {s s' : State} (hout : s.out = [])
    (h : WriteHeaderL env w lines off m_dwMaximumSpaceNeeded m_stubFile s = (.ok (), s')) : Headed w s' := by
  obtain ⟨-, hbytes, hcheck⟩ := WriteHeaderL_apply env w lines off m_dwMaximumSpaceNeeded m_stubFile s
  rw [h] at hbytes hcheck
  rw [hout, List.nil_append, TInstInstallation.bytes_flipTInstInstallation] at hbytes
  refine ⟨leBytes 2 0, _, length_leBytes _ _, ?_, hbytes, ?_⟩
  · exact (TInstInstallation.length_tailBytes _ _ (List.length_map _)).ge
  · rw [hcheck, ← Crc_append, ← Crc_append, List.append_assoc]

/-- The checksum in the place that was left for it. -/
structure Summed (w : SISWriter) (out : Bytes) : Prop where
  length : 100 ≤ out.length
  uids : readAt out 0 12 = storedUids w
  uidChecksum : readAt out 12 4 = leBytes 4 (uidChecksum (storedUids w)).toNat
  checksum : readAt out 16 2 = leBytes 2 (Crc 0 (out.take 16 ++ out.drop 18)).toNat

/-- Putting the checksum back completes the file. -/
theorem Headed.summed {w : SISWriter} {s : State} (h : Headed w s) :
    Summed w (s.out.take 16 ++ leBytes 2 s.m_wCheck.toNat ++ s.out.drop 18) := by
  obtain ⟨hole, tail, hhole, htail, hout, hcheck⟩ := h.exists_out
  obtain ⟨uids, huids⟩ : ∃ uids, storedUids w = uids := ⟨_, rfl⟩
  obtain ⟨sum, hsum⟩ : ∃ sum, leBytes 4 (Crtsis.uidChecksum uids).toNat = sum := ⟨_, rfl⟩
  obtain ⟨crc, hcrc⟩ : ∃ crc, leBytes 2 s.m_wCheck.toNat = crc := ⟨_, rfl⟩
  have huidsLen : uids.length = 12 := huids ▸ length_storedUids w
  have hsumLen : sum.length = 4 := hsum ▸ length_leBytes _ _
  have hcrcLen : crc.length = 2 := hcrc ▸ length_leBytes _ _
  rw [huids, hsum] at hout hcheck
  have htake : s.out.take 16 = uids ++ sum := by
    rw [hout, List.append_assoc (uids ++ sum), List.take_left' (by rw [List.length_append]; omega)]
  have hdrop : s.out.drop 18 = tail := by
    rw [hout, List.drop_left' (by simp only [List.length_append]; omega)]
  have htake' : (uids ++ sum ++ crc ++ tail).take 16 = uids ++ sum := by
    rw [List.append_assoc (uids ++ sum), List.take_left' (by rw [List.length_append]; omega)]
  have hdrop' : (uids ++ sum ++ crc ++ tail).drop 18 = tail := by
    rw [List.drop_left' (by simp only [List.length_append]; omega)]
  rw [hcrc, htake, hdrop]
  refine ⟨?_, ?_, ?_, ?_⟩
  · simp only [List.length_append]
    omega
  · rw [readAt, List.drop_zero, huids, List.append_assoc, List.append_assoc, List.take_left' huidsLen]
  · rw [readAt, List.append_assoc, List.append_assoc, List.drop_left' huidsLen, List.take_left' hsumLen, huids, hsum]
  · rw [readAt, htake', hdrop', ← hcheck, hcrc, List.append_assoc,
      List.drop_left' (by rw [List.length_append]; omega), List.take_left' hcrcLen]

theorem writeBlocks_eq (target : WString) (lines : List Place) (m_dwMaximumSpaceNeeded : UInt32) (m_stubFile : Bool) :
    writeBlocks env w target lines m_dwMaximumSpaceNeeded m_stubFile = (do
      setCheck 0
      WriteHeaderL env w lines (CalculateOffsets w lines) m_dwMaximumSpaceNeeded m_stubFile
      writeBody env w target lines m_stubFile
      WriteCrcL env) := by
  unfold writeBlocks writeBody writeRecords
  cases m_stubFile
  · simp only [Run.bind_assoc, Bool.false_eq_true, if_false]
  · simp only [Run.bind_assoc, if_true, Run.pure_bind]

theorem writeBlocks_summed (target : WString) (lines : List Place) (m_dwMaximumSpaceNeeded : UInt32)
    (m_stubFile : Bool) {s s' : State} (hout : s.out = [])
    (h : writeBlocks env w target lines m_dwMaximumSpaceNeeded m_stubFile s = (.ok (), s')) : Summed w s'.out := by
  rw [writeBlocks_eq] at h
  obtain ⟨_, s₁, hset, h⟩ := Run.ok_of_bind h
  have hout₁ : s₁.out = [] := (congrArg (fun r => r.2.out) hset).symm.trans hout
  obtain ⟨_, s₂, hheader, h⟩ := Run.ok_of_bind h
  have hheaded := WriteHeaderL_headed env w lines _ m_dwMaximumSpaceNeeded m_stubFile hout₁ hheader
  obtain ⟨_, s₃, hbody, hcrc⟩ := Run.ok_of_bind h
  have hextends := writeBody_extends env w target lines m_stubFile s₂
  rw [hbody] at hextends
  have hsum := (hheaded.extends hextends).summed
  rw [← ByteOrder.bytes16_flip16 env.order] at hsum
  have hout' : (WriteCrcL env s₃).2.out = s'.out := congrArg (fun r => r.2.out) hcrc
  exact hout' ▸ hsum

theorem out_of_prepare (m_stubFile : Bool) {s s' : State} {prepared : SISWriter × UInt32}
    (h : prepare env w m_stubFile s = (.ok prepared, s')) : s'.out = s.out := by
  have hsilent := Silent.diskFrame.prepare env w m_stubFile s
  rw [h] at hsilent
  exact hsilent.out

end

/-! ### A package of one file -/

/-- A host whose memory holds `0xcd`, and on which nothing can be made smaller. -/
def sampleEnv (order : ByteOrder) : Env where
  order := order
  memory := fun _ n => List.replicate n 0xcd
  length_memory := fun _ _ => List.length_replicate
  fileOf := id
  tmpPath := [84]
  deflate := some

/-- One file, for one language and Unicode. -/
def samplePackage : SISWriter where
  m_dwUID := 0x101f1234
  m_wMajor := 1
  m_wMinor := 2
  m_dwBuild := 3
  m_wType := 0
  m_wFlags := EInstIsUnicode
  langs := [1]
  langStrings := [[65]]
  pkgLines := [.EInstPkgLineFile ⟨.EInstFileTypeSimple, 0, [97], [67, 58], [], 3, 0⟩]
  depends := []
  capabilities := []

/-- A disk with the file `a`. -/
def sampleState : State where
  disk := Function.update (fun _ => none) [97] (some [1, 2, 3])
  out := []
  m_wCheck := 0
  m_dwCurrString := 0
  m_dwCurrCode := 0
  allocated := 0

end GnuPoc.Crtsis
