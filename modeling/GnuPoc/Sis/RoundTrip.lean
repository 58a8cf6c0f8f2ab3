import GnuPoc.Sis.Load

/-!
# GnuPoc.Sis.RoundTrip — what `LoadOneField` makes of the bytes `CopyHeaderData` writes

`SISField.Sound` is what every field object satisfies: `SISArray::AddElement` has checked the element
types, a `SISCompressed` holds the buffer its algorithm names, `iUsed` is at most the array size.  A
sound tree whose bytes number less than `2 ^ 32` is read back as `reread`: the same tree with the
characters cut to 16 bits and the capability blobs padded to words.  `reread` writes the same bytes and
is the identity on trees without such leaves (`SISField.Exact`).
-/

namespace GnuPoc.Sis

open GnuPoc.Lib

/-! ### Sound fields -/

/-- The states of a `SISCompressed` outside its own functions. -/
def SISCompressed.Settled (c : SISCompressed) : Prop :=
  (c.iAlgorithm = ECompressNone ∧ c.iCompressedBuffer = none ∧
    ∃ b, c.iUncompressedBuffer = some b ∧ c.iUncompressedSize.toNat = b.length) ∨
  (c.iAlgorithm ≠ ECompressNone ∧ c.iUncompressedBuffer = none ∧ ∃ b, c.iCompressedBuffer = some b)

def Leaf.Sound : Leaf → Prop
  | SISCompressed c => c.Settled
  | SISCapabilities iCapabilities => iCapabilities.length ≤ 100
  | _ => True

mutual
def SISField.Sound : SISField → Prop
  | .leaf l => l.Sound
  | .SISArray iType iElements => (∀ f ∈ iElements, f.id = iType) ∧ SoundAll iElements
  | .compound _ iElements => SoundAll iElements
def SoundAll : List SISField → Prop
  | [] => True
  | f :: fs => f.Sound ∧ SoundAll fs
end

theorem soundAll_iff {fs : List SISField} : SoundAll fs ↔ ∀ f ∈ fs, f.Sound := by
  induction fs with
  | nil => simp [SoundAll]
  | cons f fs ih => simp [SoundAll, ih]

/-! ### What reading back gives -/

def Leaf.reread : Leaf → Leaf
  | SISString iStr => SISString (iStr.map fun c => UInt32.ofNat (UInt16.ofNat c.toNat).toNat)
  | SISCapabilities iCapabilities => SISCapabilities (SISCapabilities iCapabilities).copyFieldData
  | l => l

mutual
def SISField.reread : SISField → SISField
  | .leaf l => .leaf l.reread
  | .SISArray iType iElements => .SISArray iType (rereadAll iElements)
  | .compound c iElements => .compound c (rereadAll iElements)
def rereadAll : List SISField → List SISField
  | [] => []
  | f :: fs => f.reread :: rereadAll fs
end

theorem rereadAll_eq_map (fs : List SISField) : rereadAll fs = fs.map SISField.reread := by
  induction fs with
  | nil => rfl
  | cons f fs ih => simp [rereadAll, ih]

@[simp] theorem Leaf.reread_cls (l : Leaf) : l.reread.cls = l.cls := by cases l <;> rfl

@[simp] theorem SISField.reread_cls (f : SISField) : f.reread.cls = f.cls := by
  cases f <;> simp [reread, cls]

@[simp] theorem SISField.reread_id (f : SISField) : f.reread.id = f.id := by simp [id]

/-- Leaves that are read back as they were: characters of the BMP, capability blobs of whole words. -/
def Leaf.Exact : Leaf → Prop
  | SISString iStr => ∀ c ∈ iStr, c.toNat < 2 ^ 16
  | SISCapabilities iCapabilities => iCapabilities.length % 4 = 0
  | _ => True

mutual
def SISField.Exact : SISField → Prop
  | .leaf l => l.Exact
  | .SISArray _ iElements => ExactAll iElements
  | .compound _ iElements => ExactAll iElements
def ExactAll : List SISField → Prop
  | [] => True
  | f :: fs => f.Exact ∧ ExactAll fs
end

theorem Leaf.reread_of_exact {l : Leaf} (h : l.Exact) : l.reread = l := by
  cases l with
  | SISString iStr =>
    have hc : ∀ c ∈ iStr, UInt32.ofNat (UInt16.ofNat c.toNat).toNat = c := by
      intro c hc
      have h16 : c.toNat < 2 ^ 16 := h c hc
      rw [UInt16.toNat_ofNat', Nat.mod_eq_of_lt h16, UInt32.ofNat_toNat]
    simp only [reread, SISString.injEq]
    exact (List.map_congr_left hc).trans (List.map_id' iStr)
  | SISCapabilities iCapabilities =>
    have hr : roundUp4 iCapabilities.length - iCapabilities.length = 0 := by
      have h4 : iCapabilities.length % 4 = 0 := h
      unfold roundUp4
      omega
    simp only [reread, copyFieldData, hr, List.replicate_zero, List.append_nil]
  | _ => rfl

mutual
theorem SISField.reread_of_exact : ∀ {f : SISField}, f.Exact → f.reread = f
  | .leaf l, h => by rw [SISField.reread, Leaf.reread_of_exact h]
  | .SISArray _ iElements, h => by rw [SISField.reread, rereadAll_of_exact h]
  | .compound _ iElements, h => by rw [SISField.reread, rereadAll_of_exact h]
theorem rereadAll_of_exact : ∀ {fs : List SISField}, ExactAll fs → rereadAll fs = fs
  | [], _ => rfl
  | f :: fs, h => by rw [rereadAll, SISField.reread_of_exact h.1, rereadAll_of_exact h.2]
end

/-! ### What is read back is exact and writes the same bytes -/

theorem Leaf.reread_exact (l : Leaf) : l.reread.Exact := by
  cases l with
  | SISString iStr =>
    intro c hc
    obtain ⟨a, -, rfl⟩ := List.mem_map.mp hc
    have h16 : (UInt16.ofNat a.toNat).toNat < 2 ^ 16 := UInt16.toNat_lt _
    rw [UInt32.toNat_ofNat', Nat.mod_eq_of_lt (by omega)]
    exact h16
  | SISCapabilities iCapabilities =>
    show (SISCapabilities iCapabilities).copyFieldData.length % 4 = 0
    simp only [copyFieldData, List.length_append, List.length_replicate, roundUp4]
    omega
  | _ => trivial

theorem Leaf.reread_writes (l : Leaf) :
    l.reread.length = l.length ∧ l.reread.copyFieldData = l.copyFieldData := by
  cases l with
  | SISString iStr =>
    refine ⟨by simp [reread, length], ?_⟩
    simp only [reread, copyFieldData, List.flatMap_map]
    congr 1
    ext c
    have h16 : (UInt16.ofNat c.toNat).toNat < 2 ^ 16 := UInt16.toNat_lt _
    rw [UInt32.toNat_ofNat', Nat.mod_eq_of_lt (by omega), UInt16.ofNat_toNat]
  | SISCapabilities iCapabilities =>
    have hlen : (SISCapabilities iCapabilities).copyFieldData.length =
        roundUp4 iCapabilities.length := by
      simp only [copyFieldData, List.length_append, List.length_replicate, roundUp4]
      omega
    have hround : roundUp4 (roundUp4 iCapabilities.length) = roundUp4 iCapabilities.length := by
      unfold roundUp4
      omega
    refine ⟨?_, ?_⟩
    · rw [reread, length, hlen, hround, length]
    · conv_lhs => rw [reread, copyFieldData, hlen, hround, Nat.sub_self]
      exact List.append_nil _
  | _ => exact ⟨rfl, rfl⟩

mutual
theorem SISField.reread_exact : ∀ f : SISField, f.reread.Exact
  | .leaf l => l.reread_exact
  | .SISArray _ iElements => rereadAll_exact iElements
  | .compound _ iElements => rereadAll_exact iElements
theorem rereadAll_exact : ∀ fs : List SISField, ExactAll (rereadAll fs)
  | [] => trivial
  | f :: fs => ⟨f.reread_exact, rereadAll_exact fs⟩
end

theorem rereadAll_rereadAll (fs : List SISField) : rereadAll (rereadAll fs) = rereadAll fs :=
  rereadAll_of_exact (rereadAll_exact fs)

mutual
theorem SISField.reread_writes : ∀ f : SISField,
    f.reread.length = f.length ∧ f.reread.copyFieldData = f.copyFieldData
  | .leaf l => l.reread_writes
  | .SISArray _ iElements => by
    obtain ⟨hsum, -, hcopy, -⟩ := rereadAll_writes iElements
    simp only [SISField.reread, SISField.length, SISField.copyFieldData, hsum, hcopy, and_self]
  | .compound _ iElements => by
    obtain ⟨-, hsum, -, hcopy⟩ := rereadAll_writes iElements
    simp only [SISField.reread, SISField.length, SISField.copyFieldData, hsum, hcopy, and_self]
theorem rereadAll_writes : ∀ fs : List SISField,
    sumArray (rereadAll fs) = sumArray fs ∧ sumCompound (rereadAll fs) = sumCompound fs ∧
      copyArrayElements (rereadAll fs) = copyArrayElements fs ∧
      copyElements (rereadAll fs) = copyElements fs
  | [] => ⟨rfl, rfl, rfl, rfl⟩
  | f :: fs => by
    obtain ⟨hlen, hcopy⟩ := f.reread_writes
    obtain ⟨h₁, h₂, h₃, h₄⟩ := rereadAll_writes fs
    simp only [rereadAll, sumArray, sumCompound, copyArrayElements, copyElements, SISField.reread_id,
      hlen, hcopy, h₁, h₂, h₃, h₄, and_self]
end

theorem SISField.copyHeaderData_reread (f : SISField) : f.reread.copyHeaderData = f.copyHeaderData := by
  obtain ⟨hlen, hcopy⟩ := f.reread_writes
  rw [copyHeaderData, copyHeaderData, reread_id, hlen, hcopy]

/-! ### `Length()` counts the bytes -/

theorem Leaf.length_copyFieldData {l : Leaf} (hs : l.Sound) (hlt : l.copyFieldData.length < 2 ^ 32) :
    l.length = l.copyFieldData.length := by
  cases l with
  | SISString iStr =>
    have hl : (SISString iStr).copyFieldData.length = 2 * iStr.length := by
      simp [copyFieldData, List.length_flatMap, Nat.mul_comm]
    rw [hl] at hlt
    rw [hl, length, Nat.mod_eq_of_lt hlt]
  | SISCompressed c =>
    rcases hs with ⟨_, hc, b, hu, hb⟩ | ⟨_, _, b, hc⟩
    · simp [length, copyFieldData, SISCompressed.compressedSize, SISCompressed.stored, hc, hu, hb]
      omega
    · simp [length, copyFieldData, SISCompressed.compressedSize, SISCompressed.stored, hc]
      omega
  | SISCapabilities iCapabilities =>
    have : iCapabilities.length ≤ roundUp4 iCapabilities.length := by
      unfold roundUp4
      omega
    simp only [length, copyFieldData, List.length_append, List.length_replicate]
    omega
  | _ => simp [length, copyFieldData]

theorem length_copyData {n : ℕ} {fieldData : Bytes} (h : n = fieldData.length) :
    (copyData n fieldData).length = paddedLength fieldData.length := by
  subst h
  have := le_paddedLength fieldData.length
  simp only [copyData, List.length_append, List.length_replicate]
  omega

theorem length_copyHeader {t : UInt32} {n : ℕ} {fieldData : Bytes} (h : n = fieldData.length) :
    (copyHeader t n fieldData).length = paddedLength fieldData.length + 8 := by
  simp only [copyHeader, List.length_append, length_writeUint32, length_copyData h]
  omega

theorem length_le_copyData (n : ℕ) (fieldData : Bytes) :
    fieldData.length ≤ (copyData n fieldData).length := by
  simp [copyData]

theorem Compound.length_leading_trailing (c : Compound) :
    c.leading.length + c.trailing.length = c.cls.extraLength := by
  cases c <;> simp [leading, trailing, cls, CompoundClass.extraLength]

mutual

theorem SISField.length_copyFieldData : ∀ {f : SISField}, f.Sound → f.copyFieldData.length < 2 ^ 32 →
    f.length = f.copyFieldData.length
  | .leaf l, hs, hlt => Leaf.length_copyFieldData hs hlt
  | .SISArray iType iElements, hs, hlt => by
    simp only [SISField.copyFieldData, List.length_append, length_writeUint32] at hlt ⊢
    rw [SISField.length, sumArray_eq hs.2 (by omega), Nat.mod_eq_of_lt hlt]
  | .compound c iElements, hs, hlt => by
    have hc := c.length_leading_trailing
    simp only [SISField.copyFieldData, List.length_append] at hlt ⊢
    rw [SISField.length, sumCompound_eq hs (by omega), Nat.mod_eq_of_lt (by omega)]
    omega

theorem sumCompound_eq : ∀ {fs : List SISField}, SoundAll fs → (copyElements fs).length < 2 ^ 32 →
    sumCompound fs = (copyElements fs).length
  | [], _, _ => rfl
  | f :: fs, hs, hlt => by
    have hle := length_le_copyData f.length f.copyFieldData
    simp only [copyElements, copyHeader, List.length_append, length_writeUint32] at hlt
    have hf := SISField.length_copyFieldData hs.1 (by omega)
    have hfs := sumCompound_eq hs.2 (by omega)
    simp only [sumCompound, copyElements, List.length_append, length_copyHeader hf, hfs]
    rw [hf]

theorem sumArray_eq : ∀ {fs : List SISField}, SoundAll fs → (copyArrayElements fs).length < 2 ^ 32 →
    sumArray fs = (copyArrayElements fs).length
  | [], _, _ => rfl
  | f :: fs, hs, hlt => by
    have hle := length_le_copyData f.length f.copyFieldData
    simp only [copyArrayElements, List.length_append, length_writeUint32] at hlt
    have hf := SISField.length_copyFieldData hs.1 (by omega)
    have hfs := sumArray_eq hs.2 (by omega)
    simp only [sumArray, copyArrayElements, List.length_append, length_writeUint32, length_copyData hf,
      hfs]
    rw [hf]

end

theorem SISField.length_copyHeaderData {f : SISField} (hs : f.Sound)
    (hlt : f.copyHeaderData.length < 2 ^ 32) :
    f.length = f.copyFieldData.length ∧ f.copyHeaderData.length = f.headerDataLength := by
  have hle := length_le_copyData f.length f.copyFieldData
  have hf : f.length = f.copyFieldData.length := by
    apply length_copyFieldData hs
    simp only [copyHeaderData, copyHeader, List.length_append] at hlt
    omega
  refine ⟨hf, ?_⟩
  rw [copyHeaderData, length_copyHeader hf, headerDataLength, hf]

/-! ### Reading back -/

theorem readChars_copy (iStr : List UInt32) (rest : Bytes) :
    readChars iStr.length ⟨(iStr.flatMap fun c => writeUint16 (UInt16.ofNat c.toNat)) ++ rest,
      2 * iStr.length⟩ = .ok (iStr.map fun c => UInt32.ofNat (UInt16.ofNat c.toNat).toNat) := by
  induction iStr with
  | nil => rfl
  | cons c cs ih =>
    have h2 : 2 ≤ 2 * (cs.length + 1) := by omega
    have hn : 2 * (cs.length + 1) - 2 = 2 * cs.length := by omega
    simp only [List.length_cons, List.flatMap_cons, List.append_assoc, readChars,
      readUint16_write _ _ h2, ok_bind, hn, ih, List.map_cons]

theorem loadSimpleField_write {k : ℕ} {b : Bytes} (rest : Bytes) (hb : b.length = k) :
    loadSimpleField k ⟨b ++ rest, k⟩ = .ok (ofLE b) := by
  simp [loadSimpleField, copyMem_append rest hb]

theorem loadCompressed_copy {c : SISCompressed} (hs : c.Settled) (rest : Bytes) :
    loadCompressed ⟨(Leaf.SISCompressed c).copyFieldData ++ rest,
      (Leaf.SISCompressed c).copyFieldData.length⟩ = .ok c := by
  obtain ⟨alg, size, u, z⟩ := c
  have hn (b : Bytes) : 4 + (8 + b.length) - 4 - 8 = b.length := by omega
  have h4 (b : Bytes) : 4 ≤ 4 + (8 + b.length) := by omega
  have h8 (b : Bytes) : 8 ≤ 4 + (8 + b.length) - 4 := by omega
  rcases hs with ⟨ha, hz, b, hu, hsz⟩ | ⟨ha, hu, b, hz⟩
  · simp only at ha hz hu hsz
    subst hz hu ha
    simp only [Leaf.copyFieldData, SISCompressed.stored, Option.getD_some, List.length_append,
      length_writeUint32, length_writeUint64, List.append_assoc, loadCompressed,
      readUint32_write _ _ (h4 b), readUint64_write _ _ (h8 b), ok_bind, hn, hsz, ne_eq,
      not_true_eq_false, if_true, if_false, copyMem_append rest rfl]
  · simp only at ha hz hu
    subst hz hu
    simp only [Leaf.copyFieldData, SISCompressed.stored, List.length_append, length_writeUint32,
      length_writeUint64, List.append_assoc, loadCompressed, readUint32_write _ _ (h4 b),
      readUint64_write _ _ (h8 b), ok_bind, hn, ha, if_false, copyMem_append rest rfl]

/-- A leaf that was written is read back. -/
theorem Leaf.load_copy {l : Leaf} (hs : l.Sound) (hlt : l.copyFieldData.length < 2 ^ 32) (rest : Bytes) :
    Leaf.load l.cls ⟨l.copyFieldData ++ rest, l.copyFieldData.length⟩ = .ok l.reread := by
  cases l with
  | SISString iStr =>
    have hl : (SISString iStr).copyFieldData.length = 2 * iStr.length := by
      simp [copyFieldData, List.length_flatMap, Nat.mul_comm]
    have hhalf : 2 * iStr.length / 2 = iStr.length := by omega
    rw [hl]
    simp only [cls, load, hhalf, copyFieldData, readChars_copy, ok_bind, reread]
  | SISCompressed c => simp only [cls, load, loadCompressed_copy hs, ok_bind, reread]
  | SISCapabilities iCapabilities =>
    have hl : ¬ 100 < (SISCapabilities iCapabilities).copyFieldData.length := by
      have h100 : iCapabilities.length ≤ 100 := hs
      simp only [copyFieldData, List.length_append, List.length_replicate, roundUp4]
      omega
    simp only [cls, load, hl, if_false, copyMem_append rest rfl, ok_bind, reread]
  | SISBlob iBlob => simp only [cls, load, copyFieldData, copyMem_append rest rfl, ok_bind, reread]
  | SISUid v | SISLanguage v | SISDataIndex v =>
    simp only [cls, load, copyFieldData, length_writeUint32,
      loadSimpleField_write rest (length_writeUint32 v), ok_bind, ofLE_writeUint32,
      UInt32.ofNat_toNat, reread]
  | SISControllerChecksum v | SISDataChecksum v =>
    simp only [cls, load, copyFieldData, length_writeUint16,
      loadSimpleField_write rest (length_writeUint16 v), ok_bind, ofLE_writeUint16,
      UInt16.ofNat_toNat, reread]
  | _ =>
    simp [cls, load, copyFieldData, reread, List.append_assoc, readUint32_write, readUint16_write,
      readUint8_write]

theorem Compound.length_trailing (c : Compound) : c.trailing.length = c.cls.trailingLength := by
  cases c <;> simp [trailing, cls, CompoundClass.trailingLength]

theorem Compound.load_copy (c : Compound) (rest : Bytes) (n : ℕ) :
    ∃ obj, loadLeading c.cls ⟨c.leading ++ rest, c.leading.length + n⟩ = .ok (obj, ⟨rest, n⟩) ∧
      ∀ rest', obj.loadTrailing ⟨c.trailing ++ rest', c.cls.trailingLength⟩ = .ok c := by
  cases c with
  | plain c => exact ⟨.plain c, by simp [loadLeading, leading, cls], fun _ => rfl⟩
  | SISInfo t f =>
    refine ⟨.SISInfo 0 0, by simp [loadLeading, leading, cls], fun rest' => ?_⟩
    simp [loadTrailing, trailing, cls, CompoundClass.trailingLength, readUint8_write]
  | SISHash a =>
    have h4 : 4 ≤ 4 + n := by omega
    have hn : 4 + n - 4 = n := by omega
    refine ⟨.SISHash a, ?_, fun _ => rfl⟩
    simp [loadLeading, leading, cls, readUint32_write _ _ h4, hn]
  | SISFileDescription op opt len ulen idx =>
    refine ⟨.SISFileDescription 0 0 0 0 0, by simp [loadLeading, leading, cls], fun rest' => ?_⟩
    simp [loadTrailing, trailing, cls, CompoundClass.trailingLength, readUint32_write, readUint64_write]
  | SISExpression op i =>
    have h4 : 4 ≤ 8 + n := by omega
    have h8 : 4 ≤ 8 + n - 4 := by omega
    have hn : 8 + n - 4 - 4 = n := by omega
    refine ⟨.SISExpression op i, ?_, fun _ => rfl⟩
    simp only [loadLeading, leading, cls, List.append_assoc, List.length_append, length_writeUint32,
      readUint32_write _ _ h4, readUint32_write _ _ h8, ok_bind, hn]

/-- The header `LoadOneField` reads in front of a payload. -/
theorem loadOneField_header (confine : Bool) {n m : ℕ} {t len : UInt32} {c : FieldClass} (rest : Bytes)
    (hc : newObject t = some c) (hm : 8 ≤ m) :
    loadOneField confine (n + 1) ⟨writeUint32 t ++ (writeUint32 len ++ rest), m⟩ =
      (load confine n c (Cursor.region confine ⟨rest, m - 8⟩ len.toNat)).bind fun field =>
        .ok (some field, Cursor.advance ⟨rest, m - 8⟩ len.toNat) := by
  have h0 : m ≠ 0 := by omega
  have h4 : 4 ≤ m := by omega
  have h8 : 4 ≤ m - 4 := by omega
  simp only [loadOneField, h0, if_false, readUint32_write _ _ h4, readUint32_write _ _ h8, ok_bind, hc,
    Nat.sub_sub]
  rfl

theorem overruns_header {t len : UInt32} {rest : Bytes} {m : ℕ} (h : len.toNat ≤ rest.length) :
    Cursor.overruns ⟨writeUint32 t ++ (writeUint32 len ++ rest), m⟩ = false := by
  have hd : ((writeUint32 t ++ (writeUint32 len ++ rest)).drop 4).take 4 = writeUint32 len := by
    rw [List.drop_left' (length_writeUint32 t), List.take_left' (length_writeUint32 len)]
  simp only [Cursor.overruns, hd, ofLE_writeUint32, List.length_append, length_writeUint32,
    decide_eq_false_iff_not]
  omega

/-- `LoadOneField` on a written field, given what `Load` makes of its payload. -/
theorem loadOneField_copy (confine : Bool) {f g : SISField} {n m : ℕ} (rest : Bytes)
    (hlen : f.length = f.copyFieldData.length) (hm : m < 2 ^ 32)
    (hle : f.copyHeaderData.length ≤ m)
    (hload : ∀ r : Bytes, r.length ≤ 3 + rest.length →
      load confine n f.cls ⟨f.copyFieldData ++ r, f.copyFieldData.length⟩ = .ok g) :
    loadOneField confine (n + 1) ⟨f.copyHeaderData ++ rest, m⟩ =
        .ok (some g, ⟨rest, m - f.copyHeaderData.length⟩) ∧
      Cursor.overruns ⟨f.copyHeaderData ++ rest, m⟩ = false := by
  rw [SISField.copyHeaderData, length_copyHeader hlen] at hle ⊢
  set z : Bytes := List.replicate (paddedLength f.length - f.length) 0 with hz
  have hzl : z.length ≤ 3 := by
    have := padding_lt f.length
    simp only [hz, List.length_replicate, paddedLength]
    omega
  have hpad : f.copyFieldData.length + z.length = paddedLength f.copyFieldData.length := by
    have := le_paddedLength f.length
    rw [← hlen, hz, List.length_replicate]
    omega
  have hlt : f.copyFieldData.length < 2 ^ 32 := by
    have := le_paddedLength f.copyFieldData.length
    omega
  have hw : (UInt32.ofNat f.length).toNat = f.copyFieldData.length := by
    rw [hlen, UInt32.toNat_ofNat', Nat.mod_eq_of_lt hlt]
  have hform : copyHeader f.id f.length f.copyFieldData ++ rest =
      writeUint32 f.id ++ (writeUint32 (UInt32.ofNat f.length) ++ (f.copyFieldData ++ (z ++ rest))) := by
    simp only [copyHeader, copyData, List.append_assoc, ← hz]
  rw [hform]
  refine ⟨?_, overruns_header (by rw [hw]; simp)⟩
  rw [loadOneField_header confine _ (show newObject f.id = some f.cls from newObject_id f.cls) (by omega), hw]
  obtain ⟨r, hr, hrl⟩ := region_append confine f.copyFieldData (z ++ rest) (m - 8)
  have hr3 : r.length ≤ 3 + rest.length := by
    rw [List.length_append] at hrl
    omega
  rw [hr, hload r hr3, advance_append rest hpad (by omega) (by omega), Nat.sub_sub, Nat.add_comm 8]
  rfl

mutual

/-- `Load` of the class of a sound field on what its `CopyFieldData` writes. -/
theorem load_copy (confine : Bool) : ∀ (f : SISField) (n : ℕ) (rest : Bytes), f.Sound →
    f.copyFieldData.length < 2 ^ 32 → f.copyFieldData.length + rest.length + 3 ≤ n →
    load confine n f.cls ⟨f.copyFieldData ++ rest, f.copyFieldData.length⟩ = .ok f.reread
  | .leaf l, 0, _, _, _, hn => by omega
  | .SISArray iType iElements, 0, _, _, _, hn => by omega
  | .compound c iElements, 0, _, _, _, hn => by omega
  | .leaf l, n + 1, rest, hs, hlt, hn => by
    simp only [SISField.cls, load, SISField.copyFieldData, SISField.reread] at hlt ⊢
    rw [Leaf.load_copy hs hlt, ok_bind]
  | .SISArray iType iElements, n + 1, rest, hs, hlt, hn => by
    simp only [SISField.copyFieldData, List.length_append, length_writeUint32] at hlt hn ⊢
    have h4 : 4 ≤ 4 + (copyArrayElements iElements).length := by omega
    simp only [SISField.cls, load, List.append_assoc, readUint32_write _ _ h4, ok_bind,
      Nat.add_sub_cancel_left]
    rw [loadArrayElements_copy confine iElements n rest iType hs.1 hs.2 (by omega) (by omega), ok_bind,
      SISField.reread]
  | .compound c iElements, n + 1, rest, hs, hlt, hn => by
    simp only [SISField.copyFieldData, List.length_append] at hlt hn ⊢
    have ht := c.length_trailing
    obtain ⟨obj, hlead, htrail⟩ := c.load_copy (copyElements iElements ++ (c.trailing ++ rest))
      ((copyElements iElements).length + c.trailing.length)
    have hnot : ¬ c.leading.length + ((copyElements iElements).length + c.trailing.length) <
        c.cls.trailingLength := by omega
    have hinner : (copyElements iElements).length + c.trailing.length - c.cls.trailingLength =
        (copyElements iElements).length := by omega
    obtain ⟨r, hr, hrl⟩ := region_append confine (copyElements iElements) (c.trailing ++ rest)
      ((copyElements iElements).length + c.trailing.length)
    rw [List.length_append] at hrl
    simp only [SISField.cls, load, List.append_assoc, Nat.add_assoc, hnot, if_false, hlead, ok_bind,
      hinner, hr, List.drop_left]
    rw [loadElements_copy confine iElements n r hs (by omega) (by omega), ok_bind,
      htrail, ok_bind, SISField.reread]

/-- The loop of `SISCompound::Load` on what the loop of `CopyFieldData` writes. -/
theorem loadElements_copy (confine : Bool) : ∀ (fs : List SISField) (n : ℕ) (rest : Bytes), SoundAll fs →
    (copyElements fs).length < 2 ^ 32 → (copyElements fs).length + rest.length + 2 ≤ n →
    loadElements confine n ⟨copyElements fs ++ rest, (copyElements fs).length⟩ = .ok (rereadAll fs)
  | [], 0, _, _, _, hn => by omega
  | _ :: _, 0, _, _, _, hn => by omega
  | _, 1, _, _, _, hn => by omega
  | [], _ + 2, _, _, _, _ => rfl
  | f :: fs, n + 2, rest, hs, hlt, hn => by
    have hcons : copyElements (f :: fs) = f.copyHeaderData ++ copyElements fs := rfl
    rw [hcons, List.length_append] at hlt hn
    obtain ⟨hlen, hhd⟩ := SISField.length_copyHeaderData hs.1 (by omega)
    have h8 : f.copyHeaderData.length = paddedLength f.copyFieldData.length + 8 := length_copyHeader hlen
    have hle := le_paddedLength f.copyFieldData.length
    obtain ⟨hone, hover⟩ := loadOneField_copy confine (copyElements fs ++ rest) hlen
      (m := (f.copyHeaderData ++ copyElements fs).length) (by rw [List.length_append]; omega)
      (by rw [List.length_append]; omega)
      (fun r hr => load_copy confine f n r hs.1 (by omega) (by
        rw [List.length_append] at hr
        omega))
    have h0 : ¬ (f.copyHeaderData ++ copyElements fs).length = 0 := by
      rw [List.length_append]
      omega
    have hsub : (f.copyHeaderData ++ copyElements fs).length - f.copyHeaderData.length =
        (copyElements fs).length := by
      rw [List.length_append]
      omega
    rw [hcons, List.append_assoc, loadElements, if_neg h0, hone, ok_bind, hsub]
    simp only [hover, Bool.and_false, Bool.false_eq_true, if_false]
    rw [loadElements_copy confine fs (n + 1) rest hs.2 (by omega) (by omega), ok_bind, rereadAll]

/-- The loop of `SISArray::Load` on what the loop of `CopyFieldData` writes. -/
theorem loadArrayElements_copy (confine : Bool) : ∀ (fs : List SISField) (n : ℕ) (rest : Bytes)
    (iType : UInt32), (∀ f ∈ fs, f.id = iType) → SoundAll fs → (copyArrayElements fs).length < 2 ^ 32 →
    (copyArrayElements fs).length + rest.length + 2 ≤ n →
    loadArrayElements confine n iType ⟨copyArrayElements fs ++ rest, (copyArrayElements fs).length⟩ =
      .ok (rereadAll fs)
  | [], 0, _, _, _, _, _, hn => by omega
  | _ :: _, 0, _, _, _, _, _, hn => by omega
  | [], _ + 1, _, _, _, _, _, _ => rfl
  | f :: fs, n + 1, rest, iType, hid, hs, hlt, hn => by
    have hlc := length_le_copyData f.length f.copyFieldData
    simp only [copyArrayElements, List.length_append, length_writeUint32] at hlt hn
    have hlen := SISField.length_copyFieldData hs.1 (by omega)
    have hcd := length_copyData hlen
    set z : Bytes := List.replicate (paddedLength f.length - f.length) 0 with hz
    have hpad : f.copyFieldData.length + z.length = paddedLength f.copyFieldData.length := by
      rw [← hcd, copyData, List.length_append, ← hz]
    have hw : (UInt32.ofNat f.length).toNat = f.copyFieldData.length := by
      rw [hlen, UInt32.toNat_ofNat', Nat.mod_eq_of_lt (by omega)]
    have hform : copyArrayElements (f :: fs) ++ rest = writeUint32 (UInt32.ofNat f.length) ++
        (f.copyFieldData ++ (z ++ (copyArrayElements fs ++ rest))) := by
      simp only [copyArrayElements, copyData, List.append_assoc, ← hz]
    have hm : (copyArrayElements (f :: fs)).length =
        4 + (paddedLength f.copyFieldData.length + (copyArrayElements fs).length) := by
      simp only [copyArrayElements, List.length_append, length_writeUint32, hcd, Nat.add_assoc]
    have hcls : newObject iType = some f.cls := by
      rw [← hid f List.mem_cons_self]
      exact newObject_id f.cls
    obtain ⟨r, hr, hrl⟩ := region_append confine f.copyFieldData (z ++ (copyArrayElements fs ++ rest))
      (paddedLength f.copyFieldData.length + (copyArrayElements fs).length)
    simp only [List.length_append] at hrl
    have h0 : ¬ 4 + (paddedLength f.copyFieldData.length + (copyArrayElements fs).length) = 0 := by omega
    have h4 : 4 ≤ 4 + (paddedLength f.copyFieldData.length + (copyArrayElements fs).length) := by omega
    have hmem : ¬ (f.copyFieldData ++ (z ++ (copyArrayElements fs ++ rest))).length <
        f.copyFieldData.length := by simp
    have hreid : f.reread.id = iType := (SISField.reread_id f).trans (hid f List.mem_cons_self)
    rw [hform, hm, loadArrayElements, if_neg h0, readUint32_write _ _ h4, ok_bind]
    simp only [hcls, hw, Nat.add_sub_cancel_left, hr]
    rw [load_copy confine f n r hs.1 (by omega) (by omega), ok_bind]
    simp only [hmem, hreid, decide_false, Bool.and_false, Bool.false_eq_true, if_false, ne_eq,
      not_true_eq_false]
    rw [advance_append _ hpad (by omega) (by omega), Nat.add_sub_cancel_left,
      loadArrayElements_copy confine fs n rest iType (fun g hg => hid g (List.mem_cons_of_mem _ hg)) hs.2
        (by omega) (by omega), ok_bind, rereadAll]

end

/-- **Reading back a written field.**  It consumes the field's bytes and leaves what follows. -/
theorem loadOneField_copyHeaderData (confine : Bool) {f : SISField} (rest : Bytes) {n m : ℕ}
    (hs : f.Sound) (hm : m < 2 ^ 32) (hle : f.copyHeaderData.length ≤ m)
    (hn : f.copyHeaderData.length + rest.length + 1 ≤ n) :
    loadOneField confine n ⟨f.copyHeaderData ++ rest, m⟩ =
      .ok (some f.reread, ⟨rest, m - f.copyHeaderData.length⟩) := by
  obtain ⟨hlen, -⟩ := SISField.length_copyHeaderData hs (by omega)
  have h8 : f.copyHeaderData.length = paddedLength f.copyFieldData.length + 8 := length_copyHeader hlen
  have hpl := le_paddedLength f.copyFieldData.length
  obtain ⟨k, rfl⟩ : ∃ k, n = k + 1 := ⟨n - 1, by omega⟩
  exact (loadOneField_copy confine rest hlen hm hle fun r hr =>
    load_copy confine f k r hs (by omega) (by omega)).1

/-- **Round trip.**  A tree of sound exact fields of less than `2 ^ 32` bytes is written in
`HeaderDataLength()` bytes, whole words, and read back as it was. -/
theorem copyHeaderData_loadBuffer (f : SISField) (hs : f.Sound) (he : f.Exact)
    (hlt : f.copyHeaderData.length < 2 ^ 32) :
    f.copyHeaderData.length = f.headerDataLength ∧ f.copyHeaderData.length % 4 = 0 ∧
      loadBuffer f.copyHeaderData = .ok (some f, ⟨[], 0⟩) := by
  obtain ⟨hlen, hhd⟩ := SISField.length_copyHeaderData hs hlt
  refine ⟨hhd, ?_, ?_⟩
  · have := paddedLength_mod f.length
    rw [hhd, SISField.headerDataLength]
    omega
  · have h := loadOneField_copyHeaderData false [] (n := loadFuel f.copyHeaderData) hs hlt le_rfl
      (by simp [loadFuel])
    rw [List.append_nil, SISField.reread_of_exact he, Nat.sub_self] at h
    exact h

/-- A file description in an array next to a scalar: every kind of class, padded and unpadded. -/
theorem copyHeaderData_loadBuffer_install :
    let f := SISField.plain .SISInstallBlock
      [.SISArray 24 [.compound (.SISFileDescription 1 0 9 20 0)
        [.leaf (.SISString [0x21, 0x3a, 0x41]), .leaf (.SISCapabilities [0xff, 0, 0, 0]),
          .compound (.SISHash 1) [.leaf (.SISBlob [1, 2, 3, 4, 5])]]],
        .leaf (.SISCompressed ⟨0, 1, some [7], none⟩), .leaf (.SISTime 1 2 3)]
    f.copyHeaderData.length = f.headerDataLength ∧ f.copyHeaderData.length % 4 = 0 ∧
      loadBuffer f.copyHeaderData = .ok (some f, ⟨[], 0⟩) := by
  refine copyHeaderData_loadBuffer _ ?_ ?_ (by decide +kernel)
  · simp [SISField.Sound, SoundAll, Leaf.Sound, SISCompressed.Settled, ECompressNone, SISField.id,
      SISField.cls, Compound.cls, FieldClass.id, CompoundClass.id]
  · simp [SISField.Exact, ExactAll, Leaf.Exact]

/-! ### Loaded fields are sound -/

theorem loadCompressed_settled {cur : Cursor} {c : SISCompressed} (h : loadCompressed cur = .ok c) :
    c.Settled := by
  obtain ⟨⟨alg, cur1⟩, -, h⟩ := bind_eq_ok.mp h
  obtain ⟨⟨size, cur2⟩, -, h⟩ := bind_eq_ok.mp h
  simp only at h
  split at h
  · next ha =>
    split at h
    · cases h
    · next hsz =>
      obtain ⟨b, hb, h⟩ := bind_eq_ok.mp h
      unfold copyMem at hb
      split at hb
      · cases hb
      · next hmem =>
        cases hb
        cases h
        refine Or.inl ⟨ha, rfl, _, rfl, ?_⟩
        show size.toNat = (cur2.mem.take cur2.aLength).length
        rw [List.length_take_of_le (by omega)]
        omega
  · next ha =>
    obtain ⟨b, -, h⟩ := bind_eq_ok.mp h
    cases h
    exact Or.inr ⟨ha, rfl, b, rfl⟩

theorem Leaf.load_sound {c : LeafClass} {cur : Cursor} {l : Leaf} (h : Leaf.load c cur = .ok l) :
    l.Sound ∧ l.cls = c := by
  cases c with
  | SISString | SISUid | SISLanguage | SISControllerChecksum | SISDataChecksum | SISDataIndex | SISBlob =>
    obtain ⟨v, -, h⟩ := bind_eq_ok.mp h
    cases h
    exact ⟨trivial, rfl⟩
  | SISCompressed =>
    obtain ⟨v, hv, h⟩ := bind_eq_ok.mp h
    cases h
    exact ⟨loadCompressed_settled hv, rfl⟩
  | SISVersion | SISDate | SISTime =>
    obtain ⟨⟨x, cur1⟩, -, h⟩ := bind_eq_ok.mp h
    obtain ⟨⟨y, cur2⟩, -, h⟩ := bind_eq_ok.mp h
    obtain ⟨⟨z, cur3⟩, -, h⟩ := bind_eq_ok.mp h
    cases h
    exact ⟨trivial, rfl⟩
  | SISProperty =>
    obtain ⟨⟨x, cur1⟩, -, h⟩ := bind_eq_ok.mp h
    obtain ⟨⟨y, cur2⟩, -, h⟩ := bind_eq_ok.mp h
    cases h
    exact ⟨trivial, rfl⟩
  | SISCapabilities =>
    simp only [load] at h
    split at h
    · cases h
    · next h100 =>
      obtain ⟨b, hb, h⟩ := bind_eq_ok.mp h
      unfold copyMem at hb
      split at hb <;> cases hb
      cases h
      refine ⟨?_, rfl⟩
      show (cur.mem.take cur.aLength).length ≤ 100
      rw [List.length_take]
      omega

theorem Compound.loadLeading_cls {c : CompoundClass} {cur cur' : Cursor} {obj : Compound}
    (h : loadLeading c cur = .ok (obj, cur')) : obj.cls = c := by
  cases c with
  | plain c | SISInfo | SISFileDescription =>
    cases h
    rfl
  | SISHash =>
    obtain ⟨⟨x, cur1⟩, -, h⟩ := bind_eq_ok.mp h
    cases h
    rfl
  | SISExpression =>
    obtain ⟨⟨x, cur1⟩, -, h⟩ := bind_eq_ok.mp h
    obtain ⟨⟨y, cur2⟩, -, h⟩ := bind_eq_ok.mp h
    cases h
    rfl

theorem Compound.loadTrailing_cls {c obj : Compound} {cur : Cursor}
    (h : c.loadTrailing cur = .ok obj) : obj.cls = c.cls := by
  cases c with
  | plain c | SISHash | SISExpression =>
    cases h
    rfl
  | SISInfo =>
    obtain ⟨⟨x, cur1⟩, -, h⟩ := bind_eq_ok.mp h
    obtain ⟨⟨y, cur2⟩, -, h⟩ := bind_eq_ok.mp h
    cases h
    rfl
  | SISFileDescription =>
    obtain ⟨⟨v, cur1⟩, -, h⟩ := bind_eq_ok.mp h
    obtain ⟨⟨v, cur2⟩, -, h⟩ := bind_eq_ok.mp h
    obtain ⟨⟨v, cur3⟩, -, h⟩ := bind_eq_ok.mp h
    obtain ⟨⟨v, cur4⟩, -, h⟩ := bind_eq_ok.mp h
    obtain ⟨⟨v, cur5⟩, -, h⟩ := bind_eq_ok.mp h
    cases h
    rfl

mutual

theorem load_sound (confine : Bool) : ∀ (n : ℕ) {c : FieldClass} {cur : Cursor} {f : SISField},
    load confine n c cur = .ok f → f.Sound ∧ f.cls = c
  | 0, _, _, _, h => by cases h
  | n + 1, .leaf c, cur, f, h => by
    obtain ⟨l, hl, h⟩ := bind_eq_ok.mp h
    cases h
    obtain ⟨hs, hc⟩ := Leaf.load_sound hl
    exact ⟨hs, by rw [SISField.cls, hc]⟩
  | n + 1, .SISArray, cur, f, h => by
    obtain ⟨⟨iType, cur1⟩, -, h⟩ := bind_eq_ok.mp h
    obtain ⟨fs, hfs, h⟩ := bind_eq_ok.mp h
    cases h
    exact ⟨loadArrayElements_sound confine n hfs, rfl⟩
  | n + 1, .compound c, cur, f, h => by
    rw [load] at h
    split at h
    · cases h
    · obtain ⟨⟨obj, cur1⟩, hlead, h⟩ := bind_eq_ok.mp h
      obtain ⟨fs, hfs, h⟩ := bind_eq_ok.mp h
      obtain ⟨obj', htrail, h⟩ := bind_eq_ok.mp h
      cases h
      refine ⟨loadElements_sound confine n hfs, ?_⟩
      rw [SISField.cls, Compound.loadTrailing_cls htrail, Compound.loadLeading_cls hlead]

theorem loadOneField_sound (confine : Bool) : ∀ (n : ℕ) {cur next : Cursor} {f : SISField},
    loadOneField confine n cur = .ok (some f, next) → f.Sound
  | 0, _, _, _, h => by cases h
  | n + 1, cur, next, f, h => by
    rw [loadOneField] at h
    split at h
    · cases h
    · obtain ⟨⟨type, cur1⟩, -, h⟩ := bind_eq_ok.mp h
      obtain ⟨⟨len, cur2⟩, -, h⟩ := bind_eq_ok.mp h
      simp only at h
      split at h
      · cases h
      · obtain ⟨g, hg, h⟩ := bind_eq_ok.mp h
        cases h
        exact (load_sound confine n hg).1

theorem loadElements_sound (confine : Bool) : ∀ (n : ℕ) {cur : Cursor} {fs : List SISField},
    loadElements confine n cur = .ok fs → SoundAll fs
  | 0, _, _, h => by cases h
  | n + 1, cur, fs, h => by
    rw [loadElements] at h
    split at h
    · cases h
      trivial
    · obtain ⟨⟨field, next⟩, hone, h⟩ := bind_eq_ok.mp h
      simp only at h
      split at h
      · cases h
      · cases field with
        | none => cases h
        | some f =>
          obtain ⟨rest, hrest, h⟩ := bind_eq_ok.mp h
          cases h
          exact ⟨loadOneField_sound confine n hone, loadElements_sound confine n hrest⟩

theorem loadArrayElements_sound (confine : Bool) : ∀ (n : ℕ) {iType : UInt32} {cur : Cursor}
    {fs : List SISField}, loadArrayElements confine n iType cur = .ok fs →
    (∀ f ∈ fs, f.id = iType) ∧ SoundAll fs
  | 0, _, _, _, h => by cases h
  | n + 1, iType, cur, fs, h => by
    rw [loadArrayElements] at h
    split at h
    · cases h
      exact ⟨by simp, trivial⟩
    · obtain ⟨⟨len, cur1⟩, -, h⟩ := bind_eq_ok.mp h
      simp only at h
      split at h
      · cases h
      · next c hc =>
        obtain ⟨f, hf, h⟩ := bind_eq_ok.mp h
        split at h
        · cases h
        · split at h
          · cases h
          · next hid =>
            obtain ⟨rest, hrest, h⟩ := bind_eq_ok.mp h
            cases h
            obtain ⟨hids, hss⟩ := loadArrayElements_sound confine n hrest
            refine ⟨?_, (load_sound confine n hf).1, hss⟩
            rintro g (_ | ⟨_, hg⟩)
            · exact not_not.mp hid
            · exact hids g hg

end

end GnuPoc.Sis
