import GnuPoc.Sis.RoundTrip

/-!
# GnuPoc.Sis.Compressed — the functions of `SISCompressed` and of the element lists (`sisfield.h`)

zlib is a parameter: what `compress` stores, `uncompress` gives back.  `iField` is passed to the
functions that use it.  A buffer is allocated with `HeaderDataLength()` or `Length()` bytes before the
field is copied into it; a copy of another size stops the model with `outOfBounds`.
-/

namespace GnuPoc.Sis

open GnuPoc.Lib

/-- zlib's `compress` and `uncompress`; the second argument of `uncompress` is the room in the
destination. -/
structure Zlib where
  compress : Bytes → Bytes
  uncompress : Bytes → ℕ → Option Bytes
  uncompress_compress : ∀ d, uncompress (compress d) d.length = some d
  length_uncompress : ∀ {b n d}, uncompress b n = some d → d.length ≤ n

/-- `ADLER32` of RFC 1950, most significant byte first. -/
def adler32 (d : Bytes) : Bytes :=
  let ab : ℕ × ℕ := d.foldl
    (fun ab b => ((ab.1 + b.toNat) % 65521, (ab.2 + (ab.1 + b.toNat) % 65521) % 65521)) (1, 0)
  (leBytes 2 ab.1 ++ leBytes 2 ab.2).reverse

/-- The zlib stream of one stored block. -/
def storedStream (d : Bytes) : Bytes :=
  [0x78, 0x01, 0x01] ++ leBytes 2 d.length ++ leBytes 2 (65535 - d.length) ++ d ++ adler32 d

/-- A zlib that only knows streams of one stored block, for data that fit in one. -/
def storedZlib : Zlib where
  compress d := if d.length < 2 ^ 16 then storedStream d else 0 :: d
  uncompress b n :=
    let d := if b.head? = some 0 then b.tail else (b.drop 7).take (b.length - 11)
    if d.length ≤ n then some d else none
  uncompress_compress d := by
    have ha : (adler32 d).length = 4 := by simp [adler32, length_leBytes]
    by_cases h : d.length < 2 ^ 16
    · have hb : (storedStream d).length - 11 = d.length := by
        simp [storedStream, length_leBytes, ha]
        omega
      have hdrop : (storedStream d).drop 7 = d ++ adler32 d := by
        rw [storedStream, List.append_assoc]
        exact List.drop_left' (by simp [length_leBytes])
      have hhead : (storedStream d).head? = some 0x78 := rfl
      rw [if_pos h]
      simp [hb, hdrop, hhead]
    · rw [if_neg h]
      simp
  length_uncompress := by
    intro b n d h
    simp only [Option.ite_none_right_eq_some] at h
    obtain ⟨hle, hd⟩ := h
    cases hd
    exact hle

/-! ### Element lists -/

/-- `FindElement`. -/
def findElement (aType : UInt32) (iElements : List SISField) : Option SISField :=
  iElements.find? fun f => f.id = aType

/-- `FindRemoveElement`: the first element of a type, and the others. -/
def findRemoveElement (aType : UInt32) : List SISField → Option SISField × List SISField
  | [] => (none, [])
  | f :: fs =>
    if f.id = aType then (some f, fs)
    else ((findRemoveElement aType fs).1, f :: (findRemoveElement aType fs).2)

/-- `FindRemoveLastElement`: the search starts at the end. -/
def findRemoveLastElement (aType : UInt32) (iElements : List SISField) :
    Option SISField × List SISField :=
  let (field, rest) := findRemoveElement aType iElements.reverse
  (field, rest.reverse)

/-- `AddElementAt`. -/
def addElementAt (aField : SISField) (aPos : ℕ) (iElements : List SISField) : List SISField :=
  iElements.insertIdx aPos aField

/-- A change through the pointer that `FindElement` returns for the type of `aField`. -/
def updateElement (aField : SISField) : List SISField → List SISField
  | [] => []
  | f :: fs => if f.id = aField.id then aField :: fs else f :: updateElement aField fs

theorem findElement_rereadAll (aType : UInt32) (fs : List SISField) :
    findElement aType (rereadAll fs) = (findElement aType fs).map SISField.reread := by
  induction fs with
  | nil => rfl
  | cons f fs ih =>
    by_cases h : f.id = aType
    · simp [findElement, rereadAll, h]
    · simpa [findElement, rereadAll, h] using ih

variable {f : SISField}

theorem findElement_updateElement {fs : List SISField}
    (h : (findElement f.id fs).isSome) : findElement f.id (updateElement f fs) = some f := by
  induction fs with
  | nil => simp [findElement] at h
  | cons g gs ih =>
    by_cases hg : g.id = f.id
    · simp [updateElement, findElement, hg]
    · simp only [updateElement, findElement, hg, if_false, decide_false, List.find?_cons_of_neg,
        Bool.false_eq_true, not_false_eq_true] at h ih ⊢
      exact ih h

theorem findElement_updateElement_of_ne {aType : UInt32} {f : SISField} (fs : List SISField)
    (h : f.id ≠ aType) : findElement aType (updateElement f fs) = findElement aType fs := by
  induction fs with
  | nil => rfl
  | cons g gs ih =>
    by_cases hg : g.id = f.id
    · have hga : g.id ≠ aType := by rwa [hg]
      simp [updateElement, findElement, hg, h]
    · by_cases hga : g.id = aType
      · subst hga
        simp [updateElement, findElement, hg]
      · simpa [updateElement, findElement, hg, hga] using ih

theorem findElement_addElementAt_of_ne {aType : UInt32} {f : SISField} (h : f.id ≠ aType) :
    ∀ (aPos : ℕ) (fs : List SISField), findElement aType (addElementAt f aPos fs) = findElement aType fs
  | 0, fs => by simp [findElement, addElementAt, h]
  | aPos + 1, [] => rfl
  | aPos + 1, g :: gs => by
    have ih := findElement_addElementAt_of_ne h aPos gs
    by_cases hg : g.id = aType
    · simp [findElement, addElementAt, hg]
    · simpa [findElement, addElementAt, hg] using ih

theorem findElement_addElementAt_zero (fs : List SISField) : findElement f.id (addElementAt f 0 fs) = some f := by
  simp [findElement, addElementAt]

variable {fs : List SISField}

theorem findElement_addElementAt_one (hne : fs ≠ [])
    (h : findElement f.id fs = none) : findElement f.id (addElementAt f 1 fs) = some f := by
  obtain ⟨g, gs, rfl⟩ := List.exists_cons_of_ne_nil hne
  have hg : ¬ g.id = f.id := by
    simpa using List.find?_eq_none.mp h g List.mem_cons_self
  simp [findElement, addElementAt, hg]

/-- What `FindElement` finds is written as one of the elements. -/
theorem length_updateElement {f old : SISField} (h : findElement f.id fs = some old) :
    (copyElements (updateElement f fs)).length + old.copyHeaderData.length =
      (copyElements fs).length + f.copyHeaderData.length := by
  induction fs with
  | nil => cases h
  | cons g gs ih =>
    have hcons (x : SISField) (xs : List SISField) :
        (copyElements (x :: xs)).length = x.copyHeaderData.length + (copyElements xs).length := List.length_append
    by_cases hg : g.id = f.id
    · obtain rfl : g = old := by simpa [findElement, hg] using h
      rw [updateElement, if_pos hg, hcons, hcons]
      omega
    · have hrest := ih (by simpa [findElement, hg] using h)
      rw [updateElement, if_neg hg, hcons, hcons]
      omega

theorem length_addElementAt (f : SISField) : ∀ {aPos : ℕ} {fs : List SISField}, aPos ≤ fs.length →
    (copyElements (addElementAt f aPos fs)).length = f.copyHeaderData.length + (copyElements fs).length
  | 0, fs, _ => List.length_append
  | aPos + 1, g :: gs, h => by
    have hrest := @length_addElementAt f aPos gs (Nat.le_of_succ_le_succ h)
    have hcons (x : SISField) (xs : List SISField) :
        (copyElements (x :: xs)).length = x.copyHeaderData.length + (copyElements xs).length := List.length_append
    show (copyElements (g :: addElementAt f aPos gs)).length = _
    rw [hcons, hcons, hrest]
    omega

theorem length_le_copyElements (h : f ∈ fs) : f.copyHeaderData.length ≤ (copyElements fs).length := by
  induction fs with
  | nil => cases h
  | cons g gs ih =>
    have hcons : (copyElements (g :: gs)).length = g.copyHeaderData.length + (copyElements gs).length :=
      List.length_append
    rcases List.mem_cons.mp h with rfl | h
    · omega
    · have := ih h
      omega

theorem mem_addElementAt {f g : SISField} {aPos : ℕ} (h : g ∈ addElementAt f aPos fs) : g = f ∨ g ∈ fs := by
  by_cases hle : aPos ≤ fs.length
  · exact (List.mem_insertIdx hle).mp h
  · rw [addElementAt, List.insertIdx_of_length_lt (by omega)] at h
    exact Or.inr h

theorem mem_updateElement {f g : SISField} (h : g ∈ updateElement f fs) : g = f ∨ g ∈ fs := by
  induction fs with
  | nil => simp [updateElement] at h
  | cons x xs ih =>
    rw [updateElement] at h
    split at h
    · rcases List.mem_cons.mp h with rfl | h
      · exact Or.inl rfl
      · exact Or.inr (List.mem_cons_of_mem _ h)
    · rcases List.mem_cons.mp h with rfl | h
      · exact Or.inr List.mem_cons_self
      · exact (ih h).imp_right (List.mem_cons_of_mem _)

theorem findRemoveElement_subset (aType : UInt32) (fs : List SISField) :
    (∀ g ∈ (findRemoveElement aType fs).2, g ∈ fs) ∧
      ∀ g, (findRemoveElement aType fs).1 = some g → g ∈ fs := by
  induction fs with
  | nil => simp [findRemoveElement]
  | cons f fs ih =>
    rw [findRemoveElement]
    split
    · refine ⟨fun g hg => List.mem_cons_of_mem _ hg, fun g hg => ?_⟩
      cases hg
      exact List.mem_cons_self
    · refine ⟨fun g hg => ?_, fun g hg => List.mem_cons_of_mem _ (ih.2 g hg)⟩
      rcases List.mem_cons.mp hg with rfl | hg
      · exact List.mem_cons_self
      · exact List.mem_cons_of_mem _ (ih.1 g hg)

theorem findRemoveLastElement_subset {aType : UInt32} {g : SISField}
    (hg : g ∈ (findRemoveLastElement aType fs).2) : g ∈ fs :=
  List.mem_reverse.mp ((findRemoveElement_subset aType fs.reverse).1 g (List.mem_reverse.mp hg))

theorem findRemoveElement_rereadAll (aType : UInt32) (fs : List SISField) :
    (findRemoveElement aType (rereadAll fs)).2 = rereadAll (findRemoveElement aType fs).2 := by
  induction fs with
  | nil => rfl
  | cons f fs ih =>
    by_cases h : f.id = aType
    · simp [findRemoveElement, rereadAll, h]
    · simp [findRemoveElement, rereadAll, h, ih]

theorem findRemoveLastElement_rereadAll (aType : UInt32) (fs : List SISField) :
    (findRemoveLastElement aType (rereadAll fs)).2 = rereadAll (findRemoveLastElement aType fs).2 := by
  have hrev (gs : List SISField) : (rereadAll gs).reverse = rereadAll gs.reverse := by
    rw [rereadAll_eq_map, rereadAll_eq_map, List.map_reverse]
  simp only [findRemoveLastElement, hrev, findRemoveElement_rereadAll]

theorem findRemoveElement_append {aType : UInt32} {pre : List SISField} {f : SISField}
    (post : List SISField) (hpre : ∀ g ∈ pre, g.id ≠ aType) (hf : f.id = aType) :
    findRemoveElement aType (pre ++ f :: post) = (some f, pre ++ post) := by
  induction pre with
  | nil => simp [findRemoveElement, hf]
  | cons g gs ih =>
    have hg : g.id ≠ aType := hpre g List.mem_cons_self
    rw [List.cons_append, findRemoveElement, if_neg hg,
      ih fun x hx => hpre x (List.mem_cons_of_mem _ hx), List.cons_append]

theorem findRemoveLastElement_append {aType : UInt32} (pre : List SISField) {f : SISField}
    {post : List SISField} (hpost : ∀ g ∈ post, g.id ≠ aType) (hf : f.id = aType) :
    findRemoveLastElement aType (pre ++ f :: post) = (some f, pre ++ post) := by
  have hr : (pre ++ f :: post).reverse = post.reverse ++ f :: pre.reverse := by simp
  rw [findRemoveLastElement, hr,
    findRemoveElement_append _ (fun g hg => hpost g (List.mem_reverse.mp hg)) hf]
  simp

/-! ### Buffers -/

/-- The buffer of `HeaderDataLength()` bytes that `CopyHeaderData` fills. -/
def SISField.headerData (f : SISField) : Res Bytes :=
  if f.copyHeaderData.length = f.headerDataLength then .ok f.copyHeaderData else .error .outOfBounds

/-- The buffer of `Length()` bytes that `CopyFieldData` fills. -/
def SISField.fieldData (f : SISField) : Res Bytes :=
  if f.copyFieldData.length = f.length then .ok f.copyFieldData else .error .outOfBounds

theorem SISField.headerData_eq {b : Bytes} (h : f.headerData = .ok b) :
    b = f.copyHeaderData ∧ f.copyHeaderData.length = f.headerDataLength := by
  unfold headerData at h
  split at h
  · next hl =>
    cases h
    exact ⟨rfl, hl⟩
  · cases h

theorem SISField.fieldData_eq {b : Bytes} (h : f.fieldData = .ok b) :
    b = f.copyFieldData ∧ f.copyFieldData.length = f.length := by
  unfold fieldData at h
  split at h
  · next hl =>
    cases h
    exact ⟨rfl, hl⟩
  · cases h

/-- `LoadOneField` needs a header. -/
theorem loadOneField_short {confine : Bool} {n m : ℕ} {mem : Bytes} {f : SISField} {next : Cursor}
    (hm : m < 8) : loadOneField confine n ⟨mem, m⟩ ≠ .ok (some f, next) := by
  intro h
  cases n with
  | zero => cases h
  | succ n =>
    rw [loadOneField] at h
    split at h
    · cases h
    · obtain ⟨⟨type, cur⟩, htype, h⟩ := bind_eq_ok.mp h
      obtain ⟨⟨len, cur'⟩, hlen, -⟩ := bind_eq_ok.mp h
      simp only [readUint32, readScalar] at htype hlen
      split at htype
      · cases htype
      · split at htype
        · cases htype
        · cases htype
          simp only at hlen
          rw [if_pos (by omega)] at hlen
          cases hlen

theorem sumCompound_mod (fs : List SISField) : sumCompound fs % 4 = 0 := by
  induction fs with
  | nil => rfl
  | cons f fs ih =>
    have := paddedLength_mod f.length
    rw [sumCompound]
    omega

theorem headerDataLength_plain_le (c : PlainClass) (els : List SISField) :
    (SISField.plain c els).headerDataLength ≤ 2 ^ 32 + 4 := by
  have hsum : sumCompound els % 2 ^ 32 < 2 ^ 32 := Nat.mod_lt _ (by omega)
  have hmod := sumCompound_mod els
  have hex : (Compound.plain c).cls.extraLength = 0 := rfl
  have hpad : padding (sumCompound els % 2 ^ 32) = 0 := padding_of_mod (by omega)
  simp only [SISField.headerDataLength, SISField.length, hex, Nat.add_zero, paddedLength, hpad]
  omega

/-- Reading back the buffer of a compound without scalars, its length cut to 32 bits. -/
theorem loadOneField_headerData {c : PlainClass} {els : List SISField} {b : Bytes} {n : ℕ}
    {f : SISField} {next : Cursor} (hs : SoundAll els)
    (hb : (SISField.plain c els).headerData = .ok b) (hn : b.length + 1 ≤ n)
    (h : loadOneField false n ⟨b, b.length % 2 ^ 32⟩ = .ok (some f, next)) :
    b.length < 2 ^ 32 ∧ f = .plain c (rereadAll els) := by
  obtain ⟨rfl, hlen⟩ := SISField.headerData_eq hb
  have hle := headerDataLength_plain_le c els
  by_cases hm : (SISField.plain c els).copyHeaderData.length < 2 ^ 32
  · have hload := loadOneField_copyHeaderData false [] (f := SISField.plain c els) hs hm le_rfl hn
    rw [List.append_nil] at hload
    rw [Nat.mod_eq_of_lt hm, hload] at h
    cases h
    exact ⟨hm, rfl⟩
  · exact absurd h (loadOneField_short (by omega))

/-! ### `SISCompressed` -/

/-- What `iField` points to: a field, or a `RawFile`, which is written without header and padding.
`ftell` gives a file's length as a `long`. -/
inductive Child
  | field (f : SISField)
  | RawFile (content : Bytes)

def Child.headerData : Child → Res Bytes
  | field f => f.headerData
  | RawFile content =>
    if content.length < 2 ^ 63 then .ok content else .error (.throws .SISFieldBadSourceFile)

namespace SISCompressed

/-- `LoadUncompressed`. -/
def LoadUncompressed (iField : Option Child) (c : SISCompressed) : Res SISCompressed :=
  match iField with
  | none => .error .nullField
  | some f => do
    let b ← f.headerData
    .ok { c with
      iUncompressedSize := UInt64.ofNat b.length
      iUncompressedBuffer := some b
      iCompressedBuffer := none }

/-- `Uncompress`. -/
def Uncompress (z : Zlib) (c : SISCompressed) : Res SISCompressed :=
  match c.iCompressedBuffer with
  | none => .ok c
  | some b =>
    match z.uncompress b c.iUncompressedSize.toNat with
    | none => .error (.throws .SISFieldDecompressErr)
    | some d => .ok { c with
        iUncompressedSize := UInt64.ofNat d.length
        iUncompressedBuffer := some d
        iCompressedBuffer := none }

/-- The part of `Compress` after the buffers are there. -/
def CompressBuffer (z : Zlib) (aAlgorithm : UInt32) (c : SISCompressed) : Res SISCompressed :=
  if aAlgorithm = ECompressAuto ∨ aAlgorithm = ECompressDeflate then
    if c.iCompressedBuffer.isSome then .ok c
    else
      let b := z.compress (c.iUncompressedBuffer.getD [])
      if b.length < c.iUncompressedSize.toNat ∨ aAlgorithm = ECompressDeflate then
        .ok { c with
          iAlgorithm := ECompressDeflate
          iUncompressedBuffer := none
          iCompressedBuffer := some b }
      else .ok { c with iAlgorithm := ECompressNone, iCompressedBuffer := none }
  else do
    let c ← if c.iUncompressedBuffer = none then c.Uncompress z else .ok c
    .ok { c with iCompressedBuffer := none, iAlgorithm := ECompressNone }

/-- `Compress`. -/
def Compress (z : Zlib) (aAlgorithm : UInt32) (iField : Option Child) (c : SISCompressed) :
    Res SISCompressed := do
  let c ← if c.iUncompressedBuffer = none ∧ c.iCompressedBuffer = none then c.LoadUncompressed iField
    else .ok c
  c.CompressBuffer z aAlgorithm

/-- `LoadChild`.  A `NULL` buffer has no bytes to read. -/
def LoadChild (c : SISCompressed) : Res (Option SISField × SISCompressed) := do
  let mem := c.iUncompressedBuffer.getD []
  let (iField, _) ← loadOneField false (loadFuel mem) ⟨mem, c.iUncompressedSize.toNat % 2 ^ 32⟩
  .ok (iField, { c with iUncompressedBuffer := none })

/-- `SISCompressed(aField, aAlgorithm)`. -/
def new (z : Zlib) (aField : Child) (aAlgorithm : UInt32) : Res SISCompressed := do
  let c ← LoadUncompressed (some aField) ⟨ECompressAuto, 0, none, none⟩
  c.Compress z aAlgorithm (some aField)

/-- `d` is what the object holds, compressed or not. -/
def Holds (z : Zlib) (c : SISCompressed) (d : Bytes) : Prop :=
  c.iUncompressedSize.toNat = d.length ∧
    ((c.iAlgorithm = ECompressNone ∧ c.iUncompressedBuffer = some d ∧ c.iCompressedBuffer = none) ∨
      (c.iAlgorithm = ECompressDeflate ∧ c.iUncompressedBuffer = none ∧
        ∃ b, c.iCompressedBuffer = some b ∧ z.uncompress b d.length = some d))

variable {z : Zlib} {c c' : SISCompressed} {d : Bytes}

theorem Holds.settled (h : c.Holds z d) : c.Settled := by
  obtain ⟨hsize, ⟨ha, hu, hc⟩ | ⟨ha, hu, b, hc, -⟩⟩ := h
  · exact Or.inl ⟨ha, hc, d, hu, hsize⟩
  · refine Or.inr ⟨?_, hu, b, hc⟩
    rw [ha]
    decide

/-- The algorithm that `Compress` ends with for data that were just loaded. -/
def chosen (z : Zlib) (aAlgorithm : UInt32) (d : Bytes) : UInt32 :=
  if aAlgorithm = ECompressDeflate ∨ aAlgorithm = ECompressAuto ∧ (z.compress d).length < d.length then
    ECompressDeflate
  else ECompressNone

/-- `d` as it is stored under one of the two algorithms. -/
def packed (z : Zlib) (aAlgorithm : UInt32) (d : Bytes) : SISCompressed :=
  if aAlgorithm = ECompressDeflate then
    ⟨ECompressDeflate, UInt64.ofNat d.length, none, some (z.compress d)⟩
  else ⟨ECompressNone, UInt64.ofNat d.length, some d, none⟩

theorem chosen_cases (aAlgorithm : UInt32) (d : Bytes) :
    chosen z aAlgorithm d = ECompressNone ∨ chosen z aAlgorithm d = ECompressDeflate := by
  unfold chosen
  split
  · exact Or.inr rfl
  · exact Or.inl rfl

/-- The algorithm is the wanted one exactly when that is one of the two that can be stored. -/
theorem chosen_eq_iff {aAlgorithm : UInt32} :
    chosen z aAlgorithm d = aAlgorithm ↔ aAlgorithm = ECompressNone ∨ aAlgorithm = ECompressDeflate := by
  constructor
  · intro h
    rw [← h]
    exact chosen_cases aAlgorithm d
  · rintro (rfl | rfl) <;> simp [chosen, ECompressNone, ECompressDeflate, ECompressAuto]

theorem packed_iAlgorithm {aAlgorithm : UInt32} (h : aAlgorithm = ECompressNone ∨ aAlgorithm = ECompressDeflate) :
    (packed z aAlgorithm d).iAlgorithm = aAlgorithm := by
  rcases h with rfl | rfl <;> rfl

theorem packed_holds (aAlgorithm : UInt32) (hlt : d.length < 2 ^ 64) : (packed z aAlgorithm d).Holds z d := by
  have hsize : (UInt64.ofNat d.length).toNat = d.length := by
    rw [UInt64.toNat_ofNat', Nat.mod_eq_of_lt hlt]
  unfold packed
  split
  · exact ⟨hsize, Or.inr ⟨rfl, rfl, _, rfl, z.uncompress_compress d⟩⟩
  · exact ⟨hsize, Or.inl ⟨rfl, rfl, rfl⟩⟩

/-- `Compress` on data that were just loaded. -/
theorem compressBuffer_eq (aAlgorithm : UInt32) (hsize : c.iUncompressedSize.toNat = d.length)
    (hu : c.iUncompressedBuffer = some d) (hc : c.iCompressedBuffer = none) :
    c.CompressBuffer z aAlgorithm = .ok (packed z (chosen z aAlgorithm d) d) := by
  obtain ⟨alg, size, u, b⟩ := c
  simp only at hsize hu hc
  subst hu hc
  obtain rfl : size = UInt64.ofNat d.length := by rw [← hsize, UInt64.ofNat_toNat]
  have hnone : ECompressNone ≠ ECompressDeflate := by decide
  by_cases hd : aAlgorithm = ECompressDeflate
  · simp [CompressBuffer, chosen, packed, hd]
  by_cases ha : aAlgorithm = ECompressAuto
  · by_cases hlt : (z.compress d).length < d.length
    · simp [CompressBuffer, chosen, packed, ha, hsize, hlt]
    · have hauto : ECompressAuto ≠ ECompressDeflate := by decide
      simp [CompressBuffer, chosen, packed, ha, hauto, hnone, hsize, hlt]
  · simp [CompressBuffer, chosen, packed, hd, ha, hnone, ok_bind]

/-- The constructor with a child, and a reload of the child followed by `Compress`. -/
theorem loadUncompressed_compress {f : Child} (aAlgorithm : UInt32) (hf : f.headerData = .ok d)
    (hlt : d.length < 2 ^ 64) :
    (do
      let c ← c.LoadUncompressed (some f)
      c.Compress z aAlgorithm (some f)) = .ok (packed z (chosen z aAlgorithm d) d) := by
  simp only [LoadUncompressed, hf, ok_bind, Compress, reduceCtorEq, false_and, if_false]
  apply compressBuffer_eq aAlgorithm _ rfl rfl
  rw [UInt64.toNat_ofNat', Nat.mod_eq_of_lt hlt]

theorem Holds.uncompress (h : c.Holds z d) :
    ∃ c', c.Uncompress z = .ok c' ∧ c'.iUncompressedBuffer = some d ∧
      c'.iUncompressedSize.toNat = d.length ∧ c'.iAlgorithm = c.iAlgorithm := by
  have hd : d.length < 2 ^ 64 := by
    rw [← h.1]
    exact c.iUncompressedSize.toNat_lt
  obtain ⟨hsize, ⟨ha, hu, hc⟩ | ⟨ha, hu, b, hc, hz⟩⟩ := h
  · exact ⟨c, by simp [Uncompress, hc], hu, hsize, rfl⟩
  · refine ⟨⟨c.iAlgorithm, UInt64.ofNat d.length, some d, none⟩, ?_, rfl, ?_, rfl⟩
    · simp only [Uncompress, hc, hsize, hz]
    rw [UInt64.toNat_ofNat', Nat.mod_eq_of_lt hd]

/-- What `LoadChild` makes of the bytes of a compound without scalars. -/
theorem loadChild_headerData {k : PlainClass} {els : List SISField} {f : SISField}
    (hs : SoundAll els) (hb : (SISField.plain k els).headerData = .ok d)
    (hu : c.iUncompressedBuffer = some d) (hsize : c.iUncompressedSize.toNat = d.length)
    (h : c.LoadChild = .ok (some f, c')) : d.length < 2 ^ 32 ∧ f = .plain k (rereadAll els) := by
  obtain ⟨⟨field, next⟩, hone, h⟩ := bind_eq_ok.mp h
  cases h
  rw [hu, hsize, Option.getD_some] at hone
  exact loadOneField_headerData hs hb le_rfl hone

end SISCompressed

end GnuPoc.Sis
