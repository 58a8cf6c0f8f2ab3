import GnuPoc.Sis.Compressed
import Mathlib.Data.List.Induction

/-!
# GnuPoc.Sis.CompressedRuns — any order of calls on one `SISCompressed`

An `Object` is the data of a `SISCompressed` and its `iField`.  A `Session` also says which content the
calls so far have put into the object: what `Load` read, what `LoadUncompressed` took from the child, and
the child itself where `LoadChild` has dropped the bytes it was made from.  The object stands for that
content after every call that settles the algorithm, as long as each `Load` is given a field whose stream
unpacks to the size it declares.
-/

namespace GnuPoc.Sis

open GnuPoc.Lib

/-! ### The object -/

/-- The bytes `CopyHeaderData` writes. -/
def Child.serialised : Child → Bytes
  | field f => f.copyHeaderData
  | RawFile content => content

theorem Child.headerData_serialised {f : Child} {b : Bytes} (h : f.headerData = .ok b) : b = f.serialised := by
  cases f with
  | field f => exact (SISField.headerData_eq h).1
  | RawFile content =>
    rw [headerData] at h
    split at h
    · cases h
      rfl
    · cases h

/-- A `SISCompressed` with its child. -/
structure CompressedObject where
  iField : Option Child
  data : SISCompressed

/-- The constructors. -/
inductive CompressedStart
  | noField
  | withField (aField : Child) (aAlgorithm : UInt32)

/-- The calls; `Load` gets the pointer and the length of a field's data. -/
inductive CompressedCall
  | Load (cur : Cursor)
  | LoadUncompressed
  | Compress (aAlgorithm : UInt32)
  | Uncompress
  | LoadChild

namespace CompressedObject

/-- `LoadUncompressed`.  `HeaderDataLength()` is a `uint64_t`: a longer child overruns the buffer. -/
def LoadUncompressed (o : CompressedObject) : Res CompressedObject := do
  let c ← o.data.LoadUncompressed o.iField
  if c.iUncompressedSize.toNat = (c.iUncompressedBuffer.getD []).length then .ok { o with data := c }
  else .error .outOfBounds

/-- The start of `Compress`: without a buffer the child is loaded. -/
def buffered (o : CompressedObject) : Res CompressedObject :=
  if o.data.iUncompressedBuffer = none ∧ o.data.iCompressedBuffer = none then o.LoadUncompressed else .ok o

/-- `Compress`. -/
def Compress (z : Zlib) (aAlgorithm : UInt32) (o : CompressedObject) : Res CompressedObject := do
  let o ← o.buffered
  let c ← o.data.CompressBuffer z aAlgorithm
  .ok { o with data := c }

/-- The function a call names. -/
def call (z : Zlib) (o : CompressedObject) : CompressedCall → Res CompressedObject
  | .Load cur => do
    let c ← loadCompressed cur
    .ok { o with data := c }
  | .LoadUncompressed => o.LoadUncompressed
  | .Compress aAlgorithm => o.Compress z aAlgorithm
  | .Uncompress => do
    let c ← o.data.Uncompress z
    .ok { o with data := c }
  | .LoadChild => do
    let (iField, c) ← o.data.LoadChild
    .ok ⟨iField.map .field, c⟩

/-- `SISCompressed()` and `SISCompressed(aField, aAlgorithm)`. -/
def start (z : Zlib) : CompressedStart → Res CompressedObject
  | .noField => .ok ⟨none, ECompressAuto, 0, none, none⟩
  | .withField aField aAlgorithm => do
    let o ← LoadUncompressed ⟨some aField, ECompressAuto, 0, none, none⟩
    o.Compress z aAlgorithm

end CompressedObject

/-! ### The content -/

/-- The word of the algorithm in the data of a `SISCompressed`, the size it declares, and what is stored. -/
def algorithmWord (data : Bytes) : ℕ := ofLE (data.take 4)
def declaredSize (data : Bytes) : ℕ := ofLE ((data.drop 4).take 8)
def storedBytes (data : Bytes) : Bytes := data.drop 12

/-- The content that the data of a `SISCompressed` stand for. -/
def decodeCompressed (z : Zlib) (data : Bytes) : Option Bytes :=
  let content :=
    if algorithmWord data = 0 then some (storedBytes data)
    else if algorithmWord data = 1 then z.uncompress (storedBytes data) (declaredSize data)
    else none
  content.filter fun d => d.length = declaredSize data

/-- Data that are not packed, or a Deflate stream of the size they declare. -/
def Packed (z : Zlib) (data : Bytes) : Prop :=
  algorithmWord data = 0 ∨
    (algorithmWord data = 1 ∧ ∃ d, z.uncompress (storedBytes data) (declaredSize data) = some d ∧
      d.length = declaredSize data)

/-- The bytes `Load` may read. -/
def Cursor.data (cur : Cursor) : Bytes := cur.mem.take cur.aLength

/-- An object after some calls, and the content they put into it. -/
structure Session where
  object : CompressedObject
  content : Option Bytes

namespace Session

/-- What the object stands for after a call that has made it `after`.  `LoadChild` drops the content that
is not packed. -/
def contentAfter (z : Zlib) (s : Session) (after : CompressedObject) : CompressedCall → Option Bytes
  | .Load cur => decodeCompressed z cur.data
  | .LoadUncompressed => after.iField.map Child.serialised
  | .LoadChild =>
    if s.object.data.iCompressedBuffer.isSome then s.content else after.iField.map Child.serialised
  | .Compress _ | .Uncompress => s.content

def call (z : Zlib) (s : Session) (c : CompressedCall) : Res Session := do
  let o ← s.object.call z c
  .ok ⟨o, s.contentAfter z o c⟩

def start (z : Zlib) (c : CompressedStart) : Res Session := do
  let o ← CompressedObject.start z c
  .ok ⟨o, o.iField.map Child.serialised⟩

/-- A constructor and calls none of which throws. -/
def run (z : Zlib) (c : CompressedStart) (calls : List CompressedCall) : Res Session := do
  let s ← start z c
  calls.foldlM (fun s c => s.call z c) s

end Session

/-- The calls after which the algorithm is settled. -/
def CompressedStart.settles : CompressedStart → Bool
  | noField => false
  | withField _ _ => true

def CompressedCall.settles : CompressedCall → Bool
  | Load _ | Compress _ => true
  | LoadUncompressed | Uncompress | LoadChild => false

/-- The last call is the constructor with a field, `Load` or `Compress`. -/
def Finished (c : CompressedStart) (calls : List CompressedCall) : Prop :=
  (calls.getLast?.map CompressedCall.settles).getD c.settles

/-- One buffer is held, the algorithm names it, and the object and the bytes it writes stand for `d`. -/
structure SISCompressed.StandsFor (z : Zlib) (c : SISCompressed) (d : Bytes) : Prop where
  oneBuffer : c.iUncompressedBuffer.isSome ↔ c.iCompressedBuffer = none
  deflate : c.iAlgorithm = ECompressDeflate ↔ c.iCompressedBuffer.isSome
  unpacked : c.iAlgorithm = ECompressNone ↔ c.iCompressedBuffer = none
  length : (Leaf.SISCompressed c).length = (Leaf.SISCompressed c).copyFieldData.length
  size : c.iUncompressedSize.toNat = d.length
  decodes : decodeCompressed z (Leaf.SISCompressed c).copyFieldData = some d

/-! ### The data of a field -/

theorem readUint32_eq_ok {cur next : Cursor} {v : UInt32} (h : readUint32 cur = .ok (v, next)) :
    cur.mem = writeUint32 v ++ next.mem ∧ cur.aLength = 4 + next.aLength := by
  obtain ⟨mem, n⟩ := cur
  have hlen : 4 ≤ n ∧ 4 ≤ mem.length := by
    obtain ⟨w, hw, -⟩ := bind_eq_ok.mp h
    rw [readScalar] at hw
    split at hw
    · cases hw
    · next hn =>
      split at hw
      · cases hw
      · next hmem => exact ⟨not_lt.mp hn, not_lt.mp hmem⟩
  obtain ⟨w, r, rfl, -⟩ := exists_writeUint32 hlen.2
  rw [readUint32_write w r hlen.1] at h
  cases h
  refine ⟨rfl, ?_⟩
  show n = 4 + (n - 4)
  omega

theorem readUint64_eq_ok {cur next : Cursor} {v : UInt64} (h : readUint64 cur = .ok (v, next)) :
    cur.mem = writeUint64 v ++ next.mem ∧ cur.aLength = 8 + next.aLength := by
  obtain ⟨⟨lo, cur₁⟩, hlo, h'⟩ := bind_eq_ok.mp h
  obtain ⟨⟨hi, cur₂⟩, hhi, -⟩ := bind_eq_ok.mp h'
  obtain ⟨hmem₁, hn₁⟩ := readUint32_eq_ok hlo
  obtain ⟨hmem₂, hn₂⟩ := readUint32_eq_ok hhi
  obtain ⟨mem, n⟩ := cur
  simp only at hmem₁ hn₁ hmem₂ hn₂
  have hlen : 8 ≤ mem.length := by
    rw [hmem₁, hmem₂]
    simp
    omega
  obtain ⟨w, r, rfl, -⟩ := exists_writeUint64 hlen
  rw [readUint64_write w r (by omega)] at h
  cases h
  refine ⟨rfl, ?_⟩
  show n = 8 + (n - 8)
  omega

theorem loadCompressed_data {cur : Cursor} {c : SISCompressed} (h : loadCompressed cur = .ok c) :
    (Leaf.SISCompressed c).copyFieldData = cur.data := by
  obtain ⟨⟨alg, cur₁⟩, halg, h⟩ := bind_eq_ok.mp h
  obtain ⟨⟨size, cur₂⟩, hsize, h⟩ := bind_eq_ok.mp h
  obtain ⟨hmem₁, hn₁⟩ := readUint32_eq_ok halg
  obtain ⟨hmem₂, hn₂⟩ := readUint64_eq_ok hsize
  have hdata : cur.data = writeUint32 alg ++ writeUint64 size ++ cur₂.mem.take cur₂.aLength := by
    rw [Cursor.data, hmem₁, hn₁, hmem₂, hn₂]
    simp [List.take_append, List.take_of_length_le]
  have hcopy {b : Bytes} (hb : copyMem cur₂.aLength cur₂ = .ok b) : b = cur₂.mem.take cur₂.aLength := by
    rw [copyMem] at hb
    split at hb
    · cases hb
    · cases hb
      rfl
  simp only at h
  split at h
  · split at h
    · cases h
    · obtain ⟨b, hb, h⟩ := bind_eq_ok.mp h
      cases h
      rw [hdata, ← hcopy hb]
      rfl
  · obtain ⟨b, hb, h⟩ := bind_eq_ok.mp h
    cases h
    rw [hdata, ← hcopy hb]
    rfl

section
variable (c : SISCompressed)

theorem algorithmWord_copyFieldData :
    algorithmWord (Leaf.SISCompressed c).copyFieldData = c.iAlgorithm.toNat := by
  rw [algorithmWord, Leaf.copyFieldData, List.append_assoc, List.take_left' (length_writeUint32 _),
    ofLE_writeUint32]

theorem declaredSize_copyFieldData :
    declaredSize (Leaf.SISCompressed c).copyFieldData = c.iUncompressedSize.toNat := by
  rw [declaredSize, Leaf.copyFieldData, List.append_assoc, List.drop_left' (length_writeUint32 _),
    List.take_left' (length_writeUint64 _), ofLE_writeUint64]

theorem storedBytes_copyFieldData : storedBytes (Leaf.SISCompressed c).copyFieldData = c.stored :=
  List.drop_left' (by simp)

end

/-! ### Objects that stand for their content -/

namespace SISCompressed

variable {z : Zlib} {c : SISCompressed} {d : Bytes}

theorem Holds.standsFor (h : c.Holds z d) : c.StandsFor z d := by
  obtain ⟨alg, size, u, b⟩ := c
  obtain ⟨hsize, ⟨rfl, rfl, rfl⟩ | ⟨rfl, rfl, b, rfl, hz⟩⟩ := h
  · refine ⟨by simp, by simp [ECompressNone, ECompressDeflate], by simp, ?_, hsize, ?_⟩
    · simp only at hsize
      simp [Leaf.length, Leaf.copyFieldData, stored, compressedSize, hsize]
      omega
    · simp only [decodeCompressed, algorithmWord_copyFieldData, declaredSize_copyFieldData,
        storedBytes_copyFieldData, stored, Option.getD_some, hsize]
      simp [ECompressNone]
  · refine ⟨by simp, by simp, by simp [ECompressNone, ECompressDeflate], ?_, hsize, ?_⟩
    · simp [Leaf.length, Leaf.copyFieldData, stored, compressedSize]
      omega
    · simp only [decodeCompressed, algorithmWord_copyFieldData, declaredSize_copyFieldData,
        storedBytes_copyFieldData, stored, hsize, hz]
      simp [ECompressDeflate]

/-- An object stands for something when it writes data that are not packed or packed to that size. -/
theorem StandsFor.packed (h : c.StandsFor z d) : Packed z (Leaf.SISCompressed c).copyFieldData := by
  by_cases hc : c.iCompressedBuffer = none
  · exact Or.inl (by rw [algorithmWord_copyFieldData, h.unpacked.mpr hc]; rfl)
  · have hword : algorithmWord (Leaf.SISCompressed c).copyFieldData = 1 := by
      rw [algorithmWord_copyFieldData, h.deflate.mpr (Option.isSome_iff_ne_none.mpr hc)]
      rfl
    have hdecodes := h.decodes
    rw [decodeCompressed, hword, if_neg (by decide), if_pos rfl, Option.filter_eq_some_iff] at hdecodes
    exact Or.inr ⟨hword, d, hdecodes.1, by simpa using hdecodes.2⟩

end SISCompressed

theorem load_holds {z : Zlib} {cur : Cursor} {c : SISCompressed} (h : loadCompressed cur = .ok c)
    (hp : Packed z cur.data) : ∃ d, decodeCompressed z cur.data = some d ∧ c.Holds z d := by
  have hsettled := loadCompressed_settled h
  rw [← loadCompressed_data h] at hp ⊢
  obtain ⟨alg, size, u, b⟩ := c
  rw [Packed, algorithmWord_copyFieldData, declaredSize_copyFieldData, storedBytes_copyFieldData] at hp
  have hholds : ∃ d, SISCompressed.Holds z ⟨alg, size, u, b⟩ d := by
    rcases hsettled with ⟨halg, hb, d, hu, hsize⟩ | ⟨halg, hu, b, hb⟩
    · exact ⟨d, hsize, Or.inl ⟨halg, hu, hb⟩⟩
    · simp only at halg hu hb hp
      rcases hp with hzero | ⟨hone, d, hz, hlen⟩
      · exact absurd (UInt32.toNat.inj hzero) halg
      · subst hb
        refine ⟨d, hlen.symm, Or.inr ⟨UInt32.toNat.inj hone, hu, b, rfl, ?_⟩⟩
        rw [hlen]
        exact hz
  obtain ⟨d, hd⟩ := hholds
  exact ⟨d, hd.standsFor.decodes, hd⟩

/-! ### One call -/

/-- What every call keeps: the content is in a buffer, packed or not, or in the child. -/
inductive Session.Keeps (z : Zlib) (s : Session) : Prop
  | loaded (d : Bytes) (hu : s.object.data.iUncompressedBuffer = some d)
      (hc : s.object.data.iCompressedBuffer = none) (hsize : s.object.data.iUncompressedSize.toNat = d.length)
      (hd : s.content = some d)
  | settled (d : Bytes) (h : s.object.data.Holds z d) (hd : s.content = some d)
  | dropped (hu : s.object.data.iUncompressedBuffer = none) (hc : s.object.data.iCompressedBuffer = none)
      (hd : s.content = s.object.iField.map Child.serialised)

section
variable {z : Zlib} {s t : Session} {o o' : CompressedObject}

theorem loadUncompressed_loads (h : o.LoadUncompressed = .ok o') :
    ∃ d, o'.iField.map Child.serialised = some d ∧ o'.data.iUncompressedBuffer = some d ∧
      o'.data.iCompressedBuffer = none ∧ o'.data.iUncompressedSize.toNat = d.length ∧ o'.iField = o.iField := by
  obtain ⟨c, hc, h⟩ := bind_eq_ok.mp h
  split at h
  · next hsize =>
    cases h
    unfold SISCompressed.LoadUncompressed at hc
    split at hc
    · cases hc
    · next f hf =>
      obtain ⟨b, hb, hc⟩ := bind_eq_ok.mp hc
      cases hc
      exact ⟨b, by simp [hf, Child.headerData_serialised hb], rfl, rfl, hsize, rfl⟩
  · cases h

variable {aAlgorithm : UInt32}

theorem compressBuffer_loaded {c c' : SISCompressed} {d : Bytes}
    (hu : c.iUncompressedBuffer = some d) (hc : c.iCompressedBuffer = none)
    (hsize : c.iUncompressedSize.toNat = d.length) (h : c.CompressBuffer z aAlgorithm = .ok c') :
    c'.Holds z d := by
  rw [SISCompressed.compressBuffer_eq aAlgorithm hsize hu hc] at h
  cases h
  exact SISCompressed.packed_holds _ (hsize ▸ c.iUncompressedSize.toNat_lt)

/-- `Compress` leaves a packed buffer alone or unpacks it. -/
theorem compressBuffer_settled {c c' : SISCompressed} {d : Bytes} (hholds : c.Holds z d)
    (h : c.CompressBuffer z aAlgorithm = .ok c') : c'.Holds z d := by
  obtain ⟨hsize, ⟨-, hu, hc⟩ | ⟨halg, hu, b, hb, hz⟩⟩ := id hholds
  · exact compressBuffer_loaded hu hc hsize h
  · by_cases ha : aAlgorithm = ECompressAuto ∨ aAlgorithm = ECompressDeflate
    · rw [SISCompressed.CompressBuffer, if_pos ha, if_pos (by simp [hb])] at h
      cases h
      exact hholds
    · obtain ⟨c₁, hc₁, hu₁, hsize₁, -⟩ := hholds.uncompress
      rw [SISCompressed.CompressBuffer, if_neg ha, if_pos hu, hc₁] at h
      cases h
      exact ⟨hsize₁, Or.inl ⟨rfl, hu₁, rfl⟩⟩

theorem compress_holds (hs : s.Keeps z) (h : s.object.Compress z aAlgorithm = .ok o) :
    ∃ d, s.content = some d ∧ o.data.Holds z d := by
  obtain ⟨o₁, ho₁, h⟩ := bind_eq_ok.mp h
  obtain ⟨c, hc, h⟩ := bind_eq_ok.mp h
  cases h
  rcases hs with ⟨d, hu, hnone, hsize, hd⟩ | ⟨d, hholds, hd⟩ | ⟨hu, hnone, hd⟩
  · rw [CompressedObject.buffered, if_neg (by simp [hu])] at ho₁
    cases ho₁
    exact ⟨d, hd, compressBuffer_loaded hu hnone hsize hc⟩
  · have hbuffer : ¬ (s.object.data.iUncompressedBuffer = none ∧ s.object.data.iCompressedBuffer = none) := by
      rintro ⟨hu, hnone⟩
      obtain ⟨-, ⟨-, hu', -⟩ | ⟨-, -, b, hb, -⟩⟩ := hholds
      · simp [hu] at hu'
      · simp [hnone] at hb
    rw [CompressedObject.buffered, if_neg hbuffer] at ho₁
    cases ho₁
    exact ⟨d, hd, compressBuffer_settled hholds hc⟩
  · rw [CompressedObject.buffered, if_pos ⟨hu, hnone⟩] at ho₁
    obtain ⟨d, hser, hu, hnone, hsize, hfield⟩ := loadUncompressed_loads ho₁
    exact ⟨d, by rw [hd, ← hfield, hser], compressBuffer_loaded hu hnone hsize hc⟩

theorem uncompress_keeps {c : SISCompressed} (hs : s.Keeps z) (h : s.object.data.Uncompress z = .ok c) :
    Session.Keeps z ⟨{ s.object with data := c }, s.content⟩ := by
  rcases hs with ⟨d, hu, hnone, hsize, hd⟩ | ⟨d, hholds, hd⟩ | ⟨hu, hnone, hd⟩
  · rw [SISCompressed.Uncompress, hnone] at h
    cases h
    exact .loaded d hu hnone hsize hd
  · obtain ⟨hsize, ⟨-, hu, hc⟩ | ⟨halg, hu, b, hb, hz⟩⟩ := hholds
    · rw [SISCompressed.Uncompress, hc] at h
      cases h
      exact .loaded d hu hc hsize hd
    · have hlt : d.length < 2 ^ 64 := by
        rw [← hsize]
        exact s.object.data.iUncompressedSize.toNat_lt
      rw [SISCompressed.Uncompress, hb] at h
      simp only [hsize, hz] at h
      cases h
      exact .loaded d rfl rfl (by rw [UInt64.toNat_ofNat', Nat.mod_eq_of_lt hlt]) hd
  · rw [SISCompressed.Uncompress, hnone] at h
    cases h
    exact .dropped hu hnone hd

theorem loadChild_keeps (hs : s.Keeps z) (h : s.object.call z .LoadChild = .ok o) :
    Session.Keeps z ⟨o, s.contentAfter z o .LoadChild⟩ := by
  obtain ⟨⟨iField, c⟩, hc, h⟩ := bind_eq_ok.mp h
  cases h
  obtain ⟨⟨field, next⟩, -, hc⟩ := bind_eq_ok.mp hc
  cases hc
  have hdropped (hnone : s.object.data.iCompressedBuffer = none) : Session.Keeps z
      ⟨⟨iField.map .field, { s.object.data with iUncompressedBuffer := none }⟩,
        s.contentAfter z ⟨iField.map .field, { s.object.data with iUncompressedBuffer := none }⟩ .LoadChild⟩ :=
    .dropped rfl hnone (by simp [Session.contentAfter, hnone])
  rcases hs with ⟨d, hu, hnone, hsize, hd⟩ | ⟨d, hholds, hd⟩ | ⟨hu, hnone, hd⟩
  · exact hdropped hnone
  · obtain ⟨hsize, ⟨-, hu, hnone⟩ | ⟨halg, hu, b, hb, hz⟩⟩ := hholds
    · exact hdropped hnone
    · exact .settled d ⟨hsize, Or.inr ⟨halg, rfl, b, hb, hz⟩⟩ (by simp [Session.contentAfter, hb, hd])
  · exact hdropped hnone

theorem load_settles {cur : Cursor} (h : s.call z (.Load cur) = .ok t) (hp : Packed z cur.data) :
    ∃ d, t.content = some d ∧ t.object.data.Holds z d := by
  obtain ⟨o, ho, h⟩ := bind_eq_ok.mp h
  cases h
  obtain ⟨c, hc, ho⟩ := bind_eq_ok.mp ho
  cases ho
  exact load_holds hc hp

theorem compress_settles (hs : s.Keeps z) (h : s.call z (.Compress aAlgorithm) = .ok t) :
    ∃ d, t.content = some d ∧ t.object.data.Holds z d := by
  obtain ⟨o, ho, h⟩ := bind_eq_ok.mp h
  cases h
  obtain ⟨d, hd, hholds⟩ := compress_holds hs ho
  exact ⟨d, hd, hholds⟩

/-- Every call keeps what is known of a session. -/
theorem call_keeps {c : CompressedCall} (hs : s.Keeps z) (h : s.call z c = .ok t)
    (hp : ∀ cur, c = .Load cur → Packed z cur.data) : t.Keeps z := by
  cases c with
  | Load cur =>
    obtain ⟨d, hd, hholds⟩ := load_settles h (hp cur rfl)
    exact .settled d hholds hd
  | Compress aAlgorithm =>
    obtain ⟨d, hd, hholds⟩ := compress_settles hs h
    exact .settled d hholds hd
  | LoadUncompressed =>
    obtain ⟨o, ho, h⟩ := bind_eq_ok.mp h
    cases h
    obtain ⟨d, hd, hu, hc, hsize, -⟩ := loadUncompressed_loads ho
    exact .loaded d hu hc hsize hd
  | Uncompress =>
    obtain ⟨o, ho, h⟩ := bind_eq_ok.mp h
    cases h
    obtain ⟨c, hc, ho⟩ := bind_eq_ok.mp ho
    cases ho
    exact uncompress_keeps hs hc
  | LoadChild =>
    obtain ⟨o, ho, h⟩ := bind_eq_ok.mp h
    cases h
    exact loadChild_keeps hs ho

theorem start_withField {aField : Child} (h : Session.start z (.withField aField aAlgorithm) = .ok s) :
    ∃ d, s.content = some d ∧ s.object.data.Holds z d := by
  obtain ⟨o, ho, h⟩ := bind_eq_ok.mp h
  cases h
  obtain ⟨o₁, ho₁, ho⟩ := bind_eq_ok.mp ho
  obtain ⟨d, hd, hu, hc, hsize, -⟩ := loadUncompressed_loads ho₁
  have hfield : o.iField = o₁.iField := by
    rw [CompressedObject.Compress, CompressedObject.buffered, if_neg (by simp [hu]), ok_bind] at ho
    obtain ⟨c, -, ho⟩ := bind_eq_ok.mp ho
    cases ho
    rfl
  obtain ⟨d', hd', hholds⟩ := compress_holds (s := ⟨o₁, some d⟩) (.loaded d hu hc hsize rfl) ho
  exact ⟨d', by rw [hfield, hd, hd'], hholds⟩

theorem start_keeps {c : CompressedStart} (h : Session.start z c = .ok s) : s.Keeps z := by
  cases c with
  | noField =>
    cases h
    exact .dropped rfl rfl rfl
  | withField aField aAlgorithm =>
    obtain ⟨d, hd, hholds⟩ := start_withField h
    exact .settled d hholds hd

end

/-! ### Runs -/

section
variable {z : Zlib} {c : CompressedStart}

theorem run_concat (calls : List CompressedCall) (x : CompressedCall) :
    Session.run z c (calls ++ [x]) = Session.run z c calls >>= fun s => s.call z x := by
  simp only [Session.run, List.foldlM_append, List.foldlM_cons, List.foldlM_nil, bind_assoc, bind_pure]

theorem run_keeps {calls : List CompressedCall} {s : Session} (h : Session.run z c calls = .ok s)
    (hp : ∀ cur, CompressedCall.Load cur ∈ calls → Packed z cur.data) : s.Keeps z := by
  induction calls using List.reverseRecOn generalizing s with
  | nil =>
    obtain ⟨s₀, hs₀, h⟩ := bind_eq_ok.mp h
    cases h
    exact start_keeps hs₀
  | append_singleton calls x ih =>
    rw [run_concat] at h
    obtain ⟨s₀, hs₀, h⟩ := bind_eq_ok.mp h
    refine call_keeps (ih hs₀ fun cur hcur => hp cur (by simp [hcur])) h ?_
    rintro cur rfl
    exact hp cur (by simp)

theorem run_settles {calls : List CompressedCall} {s : Session} (h : Session.run z c calls = .ok s)
    (hp : ∀ cur, CompressedCall.Load cur ∈ calls → Packed z cur.data) (hlast : Finished c calls) :
    ∃ d, s.content = some d ∧ s.object.data.Holds z d := by
  induction calls using List.reverseRecOn with
  | nil =>
    obtain ⟨s₀, hs₀, h⟩ := bind_eq_ok.mp h
    cases h
    cases c with
    | noField => simp [Finished, CompressedStart.settles] at hlast
    | withField aField aAlgorithm => exact start_withField hs₀
  | append_singleton calls x =>
    rw [run_concat] at h
    obtain ⟨s₀, hs₀, h⟩ := bind_eq_ok.mp h
    have hs := run_keeps hs₀ fun cur hcur => hp cur (by simp [hcur])
    rw [Finished, List.getLast?_concat, Option.map_some, Option.getD_some] at hlast
    cases x with
    | Load cur => exact load_settles h (hp cur (by simp))
    | Compress aAlgorithm => exact compress_settles hs h
    | LoadUncompressed => simp [CompressedCall.settles] at hlast
    | Uncompress => simp [CompressedCall.settles] at hlast
    | LoadChild => simp [CompressedCall.settles] at hlast

/-- A run without exception stands for its content after every call that settles it, exactly when each
`Load` in it gets data that are not packed or unpack to the size they declare. -/
theorem standsFor_iff_loads_packed (z : Zlib) (c : CompressedStart) (calls : List CompressedCall) (s : Session)
    (h : Session.run z c calls = .ok s) :
    (∀ done rest t, done ++ rest = calls → Session.run z c done = .ok t → Finished c done →
      ∃ d, t.content = some d ∧ t.object.data.StandsFor z d) ↔
    ∀ cur, CompressedCall.Load cur ∈ calls → Packed z cur.data := by
  constructor
  · intro hall cur hcur
    obtain ⟨done, rest, rfl⟩ := List.append_of_mem hcur
    have hsplit : done ++ .Load cur :: rest = (done ++ [.Load cur]) ++ rest := by simp
    have hrun : ∃ t, Session.run z c (done ++ [.Load cur]) = .ok t := by
      rw [hsplit, Session.run] at h
      obtain ⟨s₀, hs₀, h⟩ := bind_eq_ok.mp h
      rw [List.foldlM_append] at h
      obtain ⟨t, ht, -⟩ := bind_eq_ok.mp h
      exact ⟨t, bind_eq_ok.mpr ⟨s₀, hs₀, ht⟩⟩
    obtain ⟨t, ht⟩ := hrun
    obtain ⟨d, -, hd⟩ := hall _ rest t hsplit.symm ht (by simp [Finished, CompressedCall.settles])
    have hload : ∃ c', loadCompressed cur = .ok c' ∧ t.object.data = c' := by
      rw [run_concat] at ht
      obtain ⟨s₀, -, ht⟩ := bind_eq_ok.mp ht
      obtain ⟨o, ho, ht⟩ := bind_eq_ok.mp ht
      cases ht
      obtain ⟨c', hc', ho⟩ := bind_eq_ok.mp ho
      cases ho
      exact ⟨c', hc', rfl⟩
    obtain ⟨c', hc', hdata⟩ := hload
    rw [← loadCompressed_data hc', ← hdata]
    exact hd.packed
  · rintro hp done rest t rfl ht hlast
    obtain ⟨d, hd, hholds⟩ := run_settles ht (fun cur hcur => hp cur (by simp [hcur])) hlast
    exact ⟨d, hd, hholds.standsFor⟩

end

/-- A loaded field that is packed, unpacked and packed again. -/
theorem standsFor_iff_loads_packed_again :
    let calls : List CompressedCall := [.Load ⟨[0, 0, 0, 0, 2, 0, 0, 0, 0, 0, 0, 0, 7, 9], 14⟩,
      .Compress ECompressDeflate, .Uncompress, .Compress ECompressDeflate]
    ∀ done rest t, done ++ rest = calls → Session.run storedZlib .noField done = .ok t →
      Finished .noField done → ∃ d, t.content = some d ∧ t.object.data.StandsFor storedZlib d := by
  refine (standsFor_iff_loads_packed storedZlib .noField _ _ rfl).mpr ?_
  intro cur hcur
  simp only [List.mem_cons, CompressedCall.Load.injEq, reduceCtorEq, List.not_mem_nil, or_false] at hcur
  subst hcur
  exact Or.inl rfl

/-- `Load` takes a field of algorithm 7, and the object names neither of the two algorithms. -/
theorem unknown_algorithm_loaded : ¬ ∀ (z : Zlib) (c : CompressedStart) (calls : List CompressedCall) (s : Session),
    Session.run z c calls = .ok s → Finished c calls →
      ∃ d, s.content = some d ∧ s.object.data.StandsFor z d := by
  intro h
  obtain ⟨d, -, hd⟩ := h storedZlib .noField [.Load ⟨[7, 0, 0, 0, 0, 0, 0, 0, 0, 0, 0, 0], 12⟩] _ rfl rfl
  have hdeflate : (7 : UInt32) = ECompressDeflate := hd.deflate.mpr rfl
  exact absurd hdeflate (by decide)

end GnuPoc.Sis
