import GnuPoc.Lib.LittleEndian

/-!
# GnuPoc.Sis.Field — the SIS field classes of makesis 4 and how they are written (`sisfield.h`)

A field is a leaf (a class without child fields), a `SISArray` (children of one type, written without
their type word) or a `SISCompound` (children written with their headers, possibly after or before a few
scalars of the class).  `Length`, `PaddedLength`, `HeaderDataLength` and the `Copy*` functions follow the
source; the pointer that the C++ functions advance is the list of bytes they return.

* `Length` of a compound and of an array is summed in a `uint32_t`, and `SISString` doubles a `uint32_t`,
  hence the `% 2 ^ 32`.
* `iField` of a `SISCompressed` is not part of the field's data: neither `CopyFieldData` nor `Load` of
  `SISCompressed` touches it, it only caches what `LoadChild` decodes from the buffer.
-/

namespace GnuPoc.Sis

open GnuPoc.Lib

/-! ### The classes `NewObject` can create -/

/-- Classes that hold no child field. -/
inductive LeafClass
  | SISString | SISCompressed | SISVersion | SISDate | SISTime | SISUid | SISLanguage | SISProperty
  | SISControllerChecksum | SISDataChecksum | SISBlob | SISDataIndex | SISCapabilities
  deriving DecidableEq, Repr

/-- Classes derived from `SISCompound` that only hold elements, `SISArray` apart. -/
inductive PlainClass
  | SISVersionRange | SISDateTime | SISContents | SISController | SISSupportedLanguages
  | SISSupportedOptions | SISPrerequisites | SISDependency | SISProperties | SISCertificateChain | SISLogo
  | SISIf | SISElseIf | SISInstallBlock | SISData | SISDataUnit | SISFileData | SISSupportedOption
  | SISSignature | SISSignatureAlgorithm | SISSignatureCertificateChain
  deriving DecidableEq, Repr

/-- The four classes that add scalars of their own to a `SISCompound`, and the plain ones. -/
inductive CompoundClass
  | plain (c : PlainClass)
  | SISInfo | SISHash | SISFileDescription | SISExpression
  deriving DecidableEq, Repr

inductive FieldClass
  | leaf (c : LeafClass)
  | SISArray
  | compound (c : CompoundClass)
  deriving DecidableEq, Repr

/-- `SISFieldType`, for the leaf classes. -/
def LeafClass.id : LeafClass → UInt32
  | SISString => 1
  | SISCompressed => 3
  | SISVersion => 4
  | SISDate => 6
  | SISTime => 7
  | SISUid => 9
  | SISLanguage => 11
  | SISProperty => 20
  | SISControllerChecksum => 34
  | SISDataChecksum => 35
  | SISBlob => 37
  | SISDataIndex => 40
  | SISCapabilities => 41

/-- `SISFieldType`, for the plain compound classes. -/
def PlainClass.id : PlainClass → UInt32
  | SISVersionRange => 5
  | SISDateTime => 8
  | SISContents => 12
  | SISController => 13
  | SISSupportedLanguages => 15
  | SISSupportedOptions => 16
  | SISPrerequisites => 17
  | SISDependency => 18
  | SISProperties => 19
  | SISCertificateChain => 22
  | SISLogo => 23
  | SISIf => 26
  | SISElseIf => 27
  | SISInstallBlock => 28
  | SISData => 30
  | SISDataUnit => 31
  | SISFileData => 32
  | SISSupportedOption => 33
  | SISSignature => 36
  | SISSignatureAlgorithm => 38
  | SISSignatureCertificateChain => 39

def CompoundClass.id : CompoundClass → UInt32
  | plain c => c.id
  | SISInfo => 14
  | SISFileDescription => 24
  | SISHash => 25
  | SISExpression => 29

def FieldClass.id : FieldClass → UInt32
  | leaf c => c.id
  | SISArray => 2
  | compound c => c.id

/-- `SISField::NewObject`: the class of a type word; `none` is the `NULL` of the types 10 and 21 and of
the `default` branch. -/
def newObject (aType : UInt32) : Option FieldClass :=
  match aType.toNat with
  | 1 => some (.leaf .SISString)
  | 2 => some .SISArray
  | 3 => some (.leaf .SISCompressed)
  | 4 => some (.leaf .SISVersion)
  | 5 => some (.compound (.plain .SISVersionRange))
  | 6 => some (.leaf .SISDate)
  | 7 => some (.leaf .SISTime)
  | 8 => some (.compound (.plain .SISDateTime))
  | 9 => some (.leaf .SISUid)
  | 10 => none
  | 11 => some (.leaf .SISLanguage)
  | 12 => some (.compound (.plain .SISContents))
  | 13 => some (.compound (.plain .SISController))
  | 14 => some (.compound .SISInfo)
  | 15 => some (.compound (.plain .SISSupportedLanguages))
  | 16 => some (.compound (.plain .SISSupportedOptions))
  | 17 => some (.compound (.plain .SISPrerequisites))
  | 18 => some (.compound (.plain .SISDependency))
  | 19 => some (.compound (.plain .SISProperties))
  | 20 => some (.leaf .SISProperty)
  | 21 => none
  | 22 => some (.compound (.plain .SISCertificateChain))
  | 23 => some (.compound (.plain .SISLogo))
  | 24 => some (.compound .SISFileDescription)
  | 25 => some (.compound .SISHash)
  | 26 => some (.compound (.plain .SISIf))
  | 27 => some (.compound (.plain .SISElseIf))
  | 28 => some (.compound (.plain .SISInstallBlock))
  | 29 => some (.compound .SISExpression)
  | 30 => some (.compound (.plain .SISData))
  | 31 => some (.compound (.plain .SISDataUnit))
  | 32 => some (.compound (.plain .SISFileData))
  | 33 => some (.compound (.plain .SISSupportedOption))
  | 34 => some (.leaf .SISControllerChecksum)
  | 35 => some (.leaf .SISDataChecksum)
  | 36 => some (.compound (.plain .SISSignature))
  | 37 => some (.leaf .SISBlob)
  | 38 => some (.compound (.plain .SISSignatureAlgorithm))
  | 39 => some (.compound (.plain .SISSignatureCertificateChain))
  | 40 => some (.leaf .SISDataIndex)
  | 41 => some (.leaf .SISCapabilities)
  | _ => none

theorem newObject_id (c : FieldClass) : newObject c.id = some c := by
  cases c with
  | leaf c => cases c <;> rfl
  | SISArray => rfl
  | compound c =>
    cases c with
    | plain c => cases c <;> rfl
    | _ => rfl

theorem id_of_newObject {aType : UInt32} {c : FieldClass} (h : newObject aType = some c) :
    c.id = aType := by
  unfold newObject at h
  split at h <;> cases h
  all_goals
    apply UInt32.toNat.inj
    symm
    assumption

/-! ### Field data -/

/-- `TCompressionAlgorithm`, as the 32-bit word that is stored: `ECompressAuto` is `-1`. -/
def ECompressAuto : UInt32 := 0xffffffff
def ECompressNone : UInt32 := 0
def ECompressDeflate : UInt32 := 1

/-- What a `SISCompressed` stores.  A buffer pointer that is `NULL` is `none`. -/
structure SISCompressed where
  iAlgorithm : UInt32
  iUncompressedSize : UInt64
  iUncompressedBuffer : Option Bytes
  iCompressedBuffer : Option Bytes
  deriving DecidableEq, Repr

/-- The data of a leaf field.  The characters of a `SISString` are `wchar_t`s; `iCapabilities` holds the
`iUsed` bytes in use. -/
inductive Leaf
  | SISString (iStr : List UInt32)
  | SISCompressed (c : SISCompressed)
  | SISVersion (iMajor iMinor iBuild : UInt32)
  | SISDate (iYear : UInt16) (iMonth iDay : UInt8)
  | SISTime (iHours iMinutes iSeconds : UInt8)
  | SISUid (iValue : UInt32)
  | SISLanguage (iValue : UInt32)
  | SISProperty (iKey iValue : UInt32)
  | SISControllerChecksum (iValue : UInt16)
  | SISDataChecksum (iValue : UInt16)
  | SISBlob (iBlob : Bytes)
  | SISDataIndex (iValue : UInt32)
  | SISCapabilities (iCapabilities : Bytes)
  deriving DecidableEq, Repr

/-- A compound class with its scalar members. -/
inductive Compound
  | plain (c : PlainClass)
  | SISInfo (iInstallType iInstallFlags : UInt8)
  | SISHash (iAlgorithm : UInt32)
  | SISFileDescription (iOperation iOptions : UInt32) (iLength iUncompressedLength : UInt64)
      (iIndex : UInt32)
  | SISExpression (iOperator iIntValue : UInt32)
  deriving DecidableEq, Repr

/-- A tree of SIS fields. -/
inductive SISField
  | leaf (l : Leaf)
  | SISArray (iType : UInt32) (iElements : List SISField)
  | compound (c : Compound) (iElements : List SISField)
  deriving Repr

def Leaf.cls : Leaf → LeafClass
  | SISString _ => .SISString
  | SISCompressed _ => .SISCompressed
  | SISVersion .. => .SISVersion
  | SISDate .. => .SISDate
  | SISTime .. => .SISTime
  | SISUid _ => .SISUid
  | SISLanguage _ => .SISLanguage
  | SISProperty .. => .SISProperty
  | SISControllerChecksum _ => .SISControllerChecksum
  | SISDataChecksum _ => .SISDataChecksum
  | SISBlob _ => .SISBlob
  | SISDataIndex _ => .SISDataIndex
  | SISCapabilities _ => .SISCapabilities

def Compound.cls : Compound → CompoundClass
  | plain c => .plain c
  | SISInfo .. => .SISInfo
  | SISHash _ => .SISHash
  | SISFileDescription .. => .SISFileDescription
  | SISExpression .. => .SISExpression

def SISField.cls : SISField → FieldClass
  | leaf l => .leaf l.cls
  | SISArray .. => .SISArray
  | compound c _ => .compound c.cls

/-- `Id()`. -/
def SISField.id (f : SISField) : UInt32 := f.cls.id

/-! ### Writing -/

def writeUint8 (aValue : UInt8) : Bytes := [aValue]
def writeUint16 (aValue : UInt16) : Bytes := leBytes 2 aValue.toNat
def writeUint32 (aValue : UInt32) : Bytes := leBytes 4 aValue.toNat
/-- `WriteUint64`: the low word, then the high word. -/
def writeUint64 (aValue : UInt64) : Bytes :=
  writeUint32 (UInt32.ofNat (aValue.toNat % 2 ^ 32)) ++ writeUint32 (UInt32.ofNat (aValue.toNat / 2 ^ 32))

@[simp] theorem length_writeUint8 (v : UInt8) : (writeUint8 v).length = 1 := rfl
@[simp] theorem length_writeUint16 (v : UInt16) : (writeUint16 v).length = 2 := length_leBytes ..
@[simp] theorem length_writeUint32 (v : UInt32) : (writeUint32 v).length = 4 := length_leBytes ..
@[simp] theorem length_writeUint64 (v : UInt64) : (writeUint64 v).length = 8 := by simp [writeUint64]

theorem ofLE_writeUint16 (v : UInt16) : ofLE (writeUint16 v) = v.toNat :=
  ofLE_leBytes_of_lt v.toNat_lt

theorem ofLE_writeUint32 (v : UInt32) : ofLE (writeUint32 v) = v.toNat :=
  ofLE_leBytes_of_lt v.toNat_lt

theorem ofLE_writeUint64 (v : UInt64) : ofLE (writeUint64 v) = v.toNat := by
  have hv : v.toNat < 2 ^ 64 := v.toNat_lt
  have hlo : leBytes 4 (v.toNat % 2 ^ 32) = leBytes 4 v.toNat := leBytes_mod 4 v.toNat
  have hw : writeUint64 v = leBytes 8 v.toNat := by
    rw [leBytes_add 4 4 v.toNat, writeUint64, writeUint32, writeUint32, UInt32.toNat_ofNat',
      UInt32.toNat_ofNat', Nat.mod_mod, hlo, Nat.mod_eq_of_lt (by omega)]
    rfl
  rw [hw, ofLE_leBytes_of_lt hv]

/-! Long enough byte strings start with a scalar. -/

theorem exists_leBytes {k : ℕ} {b : Bytes} (h : k ≤ b.length) :
    ∃ n r, n < 256 ^ k ∧ b = leBytes k n ++ r ∧ r.length = b.length - k := by
  have hk : (b.take k).length = k := List.length_take_of_le h
  refine ⟨ofLE (b.take k), b.drop k, ?_, ?_, List.length_drop⟩
  · have := ofLE_lt (b.take k)
    rwa [hk] at this
  · have := leBytes_ofLE (b.take k)
    rw [hk] at this
    rw [this, List.take_append_drop]

theorem exists_writeUint8 {b : Bytes} (h : 1 ≤ b.length) :
    ∃ v r, b = writeUint8 v ++ r ∧ r.length = b.length - 1 := by
  cases b with
  | nil => simp at h
  | cons v r => exact ⟨v, r, rfl, rfl⟩

theorem exists_writeUint16 {b : Bytes} (h : 2 ≤ b.length) :
    ∃ v r, b = writeUint16 v ++ r ∧ r.length = b.length - 2 := by
  obtain ⟨n, r, hn, hb, hr⟩ := exists_leBytes h
  refine ⟨UInt16.ofNat n, r, ?_, hr⟩
  rw [writeUint16, UInt16.toNat_ofNat', Nat.mod_eq_of_lt (by omega), hb]

theorem exists_writeUint32 {b : Bytes} (h : 4 ≤ b.length) :
    ∃ v r, b = writeUint32 v ++ r ∧ r.length = b.length - 4 := by
  obtain ⟨n, r, hn, hb, hr⟩ := exists_leBytes h
  refine ⟨UInt32.ofNat n, r, ?_, hr⟩
  rw [writeUint32, UInt32.toNat_ofNat', Nat.mod_eq_of_lt (by omega), hb]

theorem writeUint64_eq (lo hi : UInt32) :
    writeUint64 (UInt64.ofNat (lo.toNat + 2 ^ 32 * hi.toNat)) = writeUint32 lo ++ writeUint32 hi := by
  have hlo : lo.toNat < 2 ^ 32 := lo.toNat_lt
  have hhi : hi.toNat < 2 ^ 32 := hi.toNat_lt
  have h : (UInt64.ofNat (lo.toNat + 2 ^ 32 * hi.toNat)).toNat = lo.toNat + 2 ^ 32 * hi.toNat := by
    rw [UInt64.toNat_ofNat', Nat.mod_eq_of_lt (by omega)]
  have h1 : (lo.toNat + 2 ^ 32 * hi.toNat) % 2 ^ 32 = lo.toNat := by omega
  have h2 : (lo.toNat + 2 ^ 32 * hi.toNat) / 2 ^ 32 = hi.toNat := by omega
  rw [writeUint64, h, h1, h2, UInt32.ofNat_toNat, UInt32.ofNat_toNat]

theorem exists_writeUint64 {b : Bytes} (h : 8 ≤ b.length) :
    ∃ v r, b = writeUint64 v ++ r ∧ r.length = b.length - 8 := by
  obtain ⟨lo, r, hb, hr⟩ := exists_writeUint32 (b := b) (by omega)
  obtain ⟨hi, r', hb', hr'⟩ := exists_writeUint32 (b := r) (by omega)
  refine ⟨UInt64.ofNat (lo.toNat + 2 ^ 32 * hi.toNat), r', ?_, by omega⟩
  rw [writeUint64_eq, List.append_assoc, ← hb', hb]

/-- `(4 - (len & 3)) & 3`. -/
def padding (len : ℕ) : ℕ := (4 - len % 4) % 4

/-- The body of `PaddedLength()`. -/
def paddedLength (len : ℕ) : ℕ := len + padding len

theorem paddedLength_mod (len : ℕ) : paddedLength len % 4 = 0 := by
  unfold paddedLength padding
  omega

theorem padding_lt (len : ℕ) : padding len < 4 := Nat.mod_lt _ (by omega)

theorem padding_of_mod {len : ℕ} (h : len % 4 = 0) : padding len = 0 := by
  unfold padding
  omega

theorem le_paddedLength (len : ℕ) : len ≤ paddedLength len := Nat.le_add_right ..

/-- `len = (iUsed + 3) & ~3`. -/
def roundUp4 (n : ℕ) : ℕ := (n + 3) / 4 * 4

/-- `SISCompressed::CopyFieldData` after the size word: the compressed buffer when there is one. -/
def SISCompressed.stored (c : SISCompressed) : Bytes :=
  match c.iCompressedBuffer with
  | some b => b
  | none => c.iUncompressedBuffer.getD []

/-- `CompressedSize()`.  `iCompressedSize` is the length of the compressed buffer. -/
def SISCompressed.compressedSize (c : SISCompressed) : ℕ :=
  match c.iCompressedBuffer with
  | some b => b.length
  | none => c.iUncompressedSize.toNat

def Leaf.length : Leaf → ℕ
  | SISString iStr => 2 * iStr.length % 2 ^ 32
  | SISCompressed c => 12 + c.compressedSize
  | SISVersion .. => 12
  | SISDate .. => 4
  | SISTime .. => 3
  | SISUid _ => 4
  | SISLanguage _ => 4
  | SISProperty .. => 8
  | SISControllerChecksum _ => 2
  | SISDataChecksum _ => 2
  | SISBlob iBlob => iBlob.length
  | SISDataIndex _ => 4
  | SISCapabilities iCapabilities => roundUp4 iCapabilities.length

def Leaf.copyFieldData : Leaf → Bytes
  | SISString iStr => iStr.flatMap fun c => writeUint16 (UInt16.ofNat c.toNat)
  | SISCompressed c => writeUint32 c.iAlgorithm ++ writeUint64 c.iUncompressedSize ++ c.stored
  | SISVersion iMajor iMinor iBuild => writeUint32 iMajor ++ writeUint32 iMinor ++ writeUint32 iBuild
  | SISDate iYear iMonth iDay => writeUint16 iYear ++ writeUint8 iMonth ++ writeUint8 iDay
  | SISTime iHours iMinutes iSeconds => writeUint8 iHours ++ writeUint8 iMinutes ++ writeUint8 iSeconds
  | SISUid iValue => writeUint32 iValue
  | SISLanguage iValue => writeUint32 iValue
  | SISProperty iKey iValue => writeUint32 iKey ++ writeUint32 iValue
  | SISControllerChecksum iValue => writeUint16 iValue
  | SISDataChecksum iValue => writeUint16 iValue
  | SISBlob iBlob => iBlob
  | SISDataIndex iValue => writeUint32 iValue
  -- `Length()` bytes of the 100-byte array, which is zero beyond `iUsed`
  | SISCapabilities iCapabilities =>
    iCapabilities ++ List.replicate (roundUp4 iCapabilities.length - iCapabilities.length) 0

/-- The scalars a class writes before its elements. -/
def Compound.leading : Compound → Bytes
  | SISHash iAlgorithm => writeUint32 iAlgorithm
  | SISExpression iOperator iIntValue => writeUint32 iOperator ++ writeUint32 iIntValue
  | _ => []

/-- The scalars a class writes after its elements. -/
def Compound.trailing : Compound → Bytes
  | SISInfo iInstallType iInstallFlags => writeUint8 iInstallType ++ writeUint8 iInstallFlags
  | SISFileDescription iOperation iOptions iLength iUncompressedLength iIndex =>
    writeUint32 iOperation ++ writeUint32 iOptions ++ writeUint64 iLength ++
      writeUint64 iUncompressedLength ++ writeUint32 iIndex
  | _ => []

/-- What a class adds to `SISCompound::Length()`. -/
def CompoundClass.extraLength : CompoundClass → ℕ
  | SISInfo => 2
  | SISHash => 4
  | SISFileDescription => 28
  | SISExpression => 8
  | _ => 0

mutual
/-- `Length()`. -/
def SISField.length : SISField → ℕ
  | .leaf l => l.length
  | .SISArray _ iElements => (4 + sumArray iElements) % 2 ^ 32
  | .compound c iElements => sumCompound iElements % 2 ^ 32 + c.cls.extraLength
/-- The sum of the loop in `SISArray::Length()`. -/
def sumArray : List SISField → ℕ
  | [] => 0
  | f :: fs => 4 + paddedLength f.length + sumArray fs
/-- The sum of the loop in `SISCompound::Length()`. -/
def sumCompound : List SISField → ℕ
  | [] => 0
  | f :: fs => (paddedLength f.length + 8) + sumCompound fs
end

/-- `HeaderDataLength()`. -/
def SISField.headerDataLength (f : SISField) : ℕ := paddedLength f.length + 8

/-- `CopyData`: the field data and zeros from `Length()` up to `PaddedLength()`. -/
def copyData (aLength : ℕ) (fieldData : Bytes) : Bytes :=
  fieldData ++ List.replicate (paddedLength aLength - aLength) 0

/-- `CopyHeaderData`. -/
def copyHeader (aType : UInt32) (aLength : ℕ) (fieldData : Bytes) : Bytes :=
  writeUint32 aType ++ writeUint32 (UInt32.ofNat aLength) ++ copyData aLength fieldData

mutual
/-- `CopyFieldData`. -/
def SISField.copyFieldData : SISField → Bytes
  | .leaf l => l.copyFieldData
  | .SISArray iType iElements => writeUint32 iType ++ copyArrayElements iElements
  | .compound c iElements => c.leading ++ copyElements iElements ++ c.trailing
/-- The loop of `SISCompound::CopyFieldData`. -/
def copyElements : List SISField → Bytes
  | [] => []
  | f :: fs => copyHeader f.id f.length f.copyFieldData ++ copyElements fs
/-- The loop of `SISArray::CopyFieldData`. -/
def copyArrayElements : List SISField → Bytes
  | [] => []
  | f :: fs => writeUint32 (UInt32.ofNat f.length) ++ copyData f.length f.copyFieldData ++
      copyArrayElements fs
end

/-- `CopyHeaderData`. -/
def SISField.copyHeaderData (f : SISField) : Bytes := copyHeader f.id f.length f.copyFieldData

/-- A field of a class without scalar members of its own. -/
abbrev SISField.plain (c : PlainClass) (iElements : List SISField) : SISField :=
  .compound (.plain c) iElements

end GnuPoc.Sis
