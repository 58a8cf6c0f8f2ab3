import GnuPoc.Lib.Outcome
import GnuPoc.Sis.Field

/-!
# GnuPoc.Sis.Load — `LoadOneField` and the `Load` functions of the field classes (`sisfield.h`)

The loaders run on a `Cursor`: the memory from the pointer `aBuffer` to the end of the caller's buffer,
and the counter `aLength`, which only the `Read*` functions check.  `memcpy` and the loops of
`SISSimpleField` check nothing, so the model stops with `outOfBounds` where the code reads past the
buffer and with `nullField` where it calls through `NULL`.

`confine = false` is the code.  With `confine = true` the same run is watched: a `Load` only sees the
bytes of its own field, and a nested field whose declared length passes the end of its enclosing field
stops the run.  The recursion is on fuel; `Sis.Bounds` shows that the memory bounds it.
-/

namespace GnuPoc.Sis

open GnuPoc.Lib

inductive SISFieldError
  | SISFieldBadSourceFile | SISFieldDecompressErr | SISFieldCompressErr | SISFieldReadErr
  deriving DecidableEq, Repr

/-- How a run ends without a result.  `exits` is `exit(1)`, an error code returned by `main`, or an error
`makesis` throws to its `main`. -/
inductive Stop
  | throws (e : SISFieldError)
  | outOfBounds
  | nullField
  | aborts
  | exits
  | outOfFuel
  deriving DecidableEq, Repr

abbrev Res (α : Type) := Except Stop α

@[simp] theorem ok_bind {α β : Type} (a : α) (f : α → Res β) : (Except.ok a >>= f) = f a := rfl

@[simp] theorem error_bind {α β : Type} (e : Stop) (f : α → Res β) :
    ((Except.error e : Res α) >>= f) = Except.error e := rfl

structure Cursor where
  mem : Bytes
  aLength : ℕ
  deriving DecidableEq, Repr

/-- `aBuffer += length; aLength -= length` after the padding was added to `length`, in `uint32_t`. -/
def Cursor.advance (cur : Cursor) (length : ℕ) : Cursor :=
  ⟨cur.mem.drop (paddedLength length % 2 ^ 32),
    (cur.aLength + (2 ^ 32 - paddedLength length % 2 ^ 32)) % 2 ^ 32⟩

/-- The cursor a callee gets that may read `length` bytes. -/
def Cursor.region (confine : Bool) (cur : Cursor) (length : ℕ) : Cursor :=
  ⟨if confine then cur.mem.take length else cur.mem, length⟩

/-! ### Reading scalars -/

def readScalar (k : ℕ) (cur : Cursor) : Res (ℕ × Cursor) :=
  if cur.aLength < k then .error (.throws .SISFieldReadErr)
  else if cur.mem.length < k then .error .outOfBounds
  else .ok (ofLE (cur.mem.take k), ⟨cur.mem.drop k, cur.aLength - k⟩)

def readUint8 (cur : Cursor) : Res (UInt8 × Cursor) := do
  let (v, cur) ← readScalar 1 cur
  .ok (UInt8.ofNat v, cur)

def readUint16 (cur : Cursor) : Res (UInt16 × Cursor) := do
  let (v, cur) ← readScalar 2 cur
  .ok (UInt16.ofNat v, cur)

def readUint32 (cur : Cursor) : Res (UInt32 × Cursor) := do
  let (v, cur) ← readScalar 4 cur
  .ok (UInt32.ofNat v, cur)

/-- `ReadUint64`: the low word, then the high word. -/
def readUint64 (cur : Cursor) : Res (UInt64 × Cursor) := do
  let (lo, cur) ← readUint32 cur
  let (hi, cur) ← readUint32 cur
  .ok (UInt64.ofNat (lo.toNat + 2 ^ 32 * hi.toNat), cur)

/-- `memcpy` of `n` bytes from the cursor. -/
def copyMem (n : ℕ) (cur : Cursor) : Res Bytes :=
  if cur.mem.length < n then .error .outOfBounds else .ok (cur.mem.take n)

theorem readScalar_append {k n : ℕ} {b rest : Bytes} (hb : b.length = k) (hn : k ≤ n) :
    readScalar k ⟨b ++ rest, n⟩ = .ok (ofLE b, ⟨rest, n - k⟩) := by
  subst hb
  simp [readScalar, Nat.not_lt.mpr hn]

theorem readUint8_write {n : ℕ} (v : UInt8) (rest : Bytes) (hn : 1 ≤ n) :
    readUint8 ⟨writeUint8 v ++ rest, n⟩ = .ok (v, ⟨rest, n - 1⟩) := by
  rw [readUint8, readScalar_append (length_writeUint8 v) hn]
  simp [writeUint8, ofLE]

theorem readUint16_write {n : ℕ} (v : UInt16) (rest : Bytes) (hn : 2 ≤ n) :
    readUint16 ⟨writeUint16 v ++ rest, n⟩ = .ok (v, ⟨rest, n - 2⟩) := by
  rw [readUint16, readScalar_append (length_writeUint16 v) hn, ofLE_writeUint16]
  simp

theorem readUint32_write {n : ℕ} (v : UInt32) (rest : Bytes) (hn : 4 ≤ n) :
    readUint32 ⟨writeUint32 v ++ rest, n⟩ = .ok (v, ⟨rest, n - 4⟩) := by
  rw [readUint32, readScalar_append (length_writeUint32 v) hn, ofLE_writeUint32]
  simp

theorem readUint64_write {n : ℕ} (v : UInt64) (rest : Bytes) (hn : 8 ≤ n) :
    readUint64 ⟨writeUint64 v ++ rest, n⟩ = .ok (v, ⟨rest, n - 8⟩) := by
  have hv : v.toNat < 2 ^ 64 := v.toNat_lt
  have hlo : (UInt32.ofNat (v.toNat % 2 ^ 32)).toNat = v.toNat % 2 ^ 32 := by
    simp only [UInt32.toNat_ofNat']
    omega
  have hhi : (UInt32.ofNat (v.toNat / 2 ^ 32)).toNat = v.toNat / 2 ^ 32 := by
    simp only [UInt32.toNat_ofNat']
    omega
  have h4 : 4 ≤ n := by omega
  have h8 : 4 ≤ n - 4 := by omega
  simp only [readUint64, writeUint64, List.append_assoc, readUint32_write _ _ h4, ok_bind,
    readUint32_write _ _ h8, hlo, hhi, Nat.mod_add_div, UInt64.ofNat_toNat, Nat.sub_sub]

theorem copyMem_append {k n : ℕ} {b : Bytes} (rest : Bytes) (hb : b.length = k) :
    copyMem k ⟨b ++ rest, n⟩ = .ok b := by
  subst hb
  simp [copyMem]

theorem region_append (confine : Bool) (b rest : Bytes) (n : ℕ) :
    ∃ r, Cursor.region confine ⟨b ++ rest, n⟩ b.length = ⟨b ++ r, b.length⟩ ∧ r.length ≤ rest.length := by
  cases confine with
  | false => exact ⟨rest, rfl, le_rfl⟩
  | true => exact ⟨[], by simp [Cursor.region], Nat.zero_le _⟩

theorem advance_append {b z : Bytes} (rest : Bytes) {n : ℕ}
    (hz : b.length + z.length = paddedLength b.length) (hn : n < 2 ^ 32)
    (hle : paddedLength b.length ≤ n) :
    Cursor.advance ⟨b ++ (z ++ rest), n⟩ b.length = ⟨rest, n - paddedLength b.length⟩ := by
  have hp : paddedLength b.length % 2 ^ 32 = paddedLength b.length := Nat.mod_eq_of_lt (by omega)
  have hd : (b ++ (z ++ rest)).drop (paddedLength b.length) = rest := by
    rw [← List.append_assoc, ← hz, ← List.length_append, List.drop_left]
  simp only [Cursor.advance, hp, hd, Cursor.mk.injEq, true_and]
  omega

/-! ### The leaf classes -/

/-- `SISSimpleField::Load` for a value of `k` bytes. -/
def loadSimpleField (k : ℕ) (cur : Cursor) : Res ℕ :=
  if cur.aLength ≠ k then .error (.throws .SISFieldReadErr)
  else do
    let b ← copyMem k cur
    .ok (ofLE b)

/-- The loop of `SISString::Load`. -/
def readChars : ℕ → Cursor → Res (List UInt32)
  | 0, _ => .ok []
  | n + 1, cur => do
    let (c, cur) ← readUint16 cur
    let cs ← readChars n cur
    .ok (UInt32.ofNat c.toNat :: cs)

/-- `SISCompressed::Load`. -/
def loadCompressed (cur : Cursor) : Res SISCompressed := do
  let (iAlgorithm, cur) ← readUint32 cur
  let (iUncompressedSize, cur) ← readUint64 cur
  if iAlgorithm = ECompressNone then
    if cur.aLength ≠ iUncompressedSize.toNat then .error (.throws .SISFieldReadErr)
    else do
      let b ← copyMem cur.aLength cur
      .ok ⟨iAlgorithm, iUncompressedSize, some b, none⟩
  else do
    let b ← copyMem cur.aLength cur
    .ok ⟨iAlgorithm, iUncompressedSize, none, some b⟩

/-- `Load` of the leaf classes. -/
def Leaf.load : LeafClass → Cursor → Res Leaf
  | .SISString, cur => do
    let iStr ← readChars (cur.aLength / 2) cur
    .ok (.SISString iStr)
  | .SISCompressed, cur => do
    let c ← loadCompressed cur
    .ok (.SISCompressed c)
  | .SISVersion, cur => do
    let (iMajor, cur) ← readUint32 cur
    let (iMinor, cur) ← readUint32 cur
    let (iBuild, _) ← readUint32 cur
    .ok (.SISVersion iMajor iMinor iBuild)
  | .SISDate, cur => do
    let (iYear, cur) ← readUint16 cur
    let (iMonth, cur) ← readUint8 cur
    let (iDay, _) ← readUint8 cur
    .ok (.SISDate iYear iMonth iDay)
  | .SISTime, cur => do
    let (iHours, cur) ← readUint8 cur
    let (iMinutes, cur) ← readUint8 cur
    let (iSeconds, _) ← readUint8 cur
    .ok (.SISTime iHours iMinutes iSeconds)
  | .SISUid, cur => do
    let v ← loadSimpleField 4 cur
    .ok (.SISUid (UInt32.ofNat v))
  | .SISLanguage, cur => do
    let v ← loadSimpleField 4 cur
    .ok (.SISLanguage (UInt32.ofNat v))
  | .SISProperty, cur => do
    let (iKey, cur) ← readUint32 cur
    let (iValue, _) ← readUint32 cur
    .ok (.SISProperty iKey iValue)
  | .SISControllerChecksum, cur => do
    let v ← loadSimpleField 2 cur
    .ok (.SISControllerChecksum (UInt16.ofNat v))
  | .SISDataChecksum, cur => do
    let v ← loadSimpleField 2 cur
    .ok (.SISDataChecksum (UInt16.ofNat v))
  | .SISBlob, cur => do
    let b ← copyMem cur.aLength cur
    .ok (.SISBlob b)
  | .SISDataIndex, cur => do
    let v ← loadSimpleField 4 cur
    .ok (.SISDataIndex (UInt32.ofNat v))
  | .SISCapabilities, cur =>
    -- `sizeof(iCapabilities)`
    if 100 < cur.aLength then .error (.throws .SISFieldReadErr)
    else do
      let b ← copyMem cur.aLength cur
      .ok (.SISCapabilities b)

/-! ### The compound classes -/

/-- What a class reads before its elements.  Scalars that are read after them, or not at all, have the
constructor's values. -/
def Compound.loadLeading : CompoundClass → Cursor → Res (Compound × Cursor)
  | .plain c, cur => .ok (.plain c, cur)
  | .SISInfo, cur => .ok (.SISInfo 0 0, cur)
  | .SISFileDescription, cur => .ok (.SISFileDescription 0 0 0 0 0, cur)
  | .SISHash, cur => do
    let (iAlgorithm, cur) ← readUint32 cur
    .ok (.SISHash iAlgorithm, cur)
  | .SISExpression, cur => do
    let (iOperator, cur) ← readUint32 cur
    let (iIntValue, cur) ← readUint32 cur
    .ok (.SISExpression iOperator iIntValue, cur)

/-- What a class reads after its elements. -/
def Compound.loadTrailing : Compound → Cursor → Res Compound
  | .SISInfo _ _, cur => do
    let (iInstallType, cur) ← readUint8 cur
    let (iInstallFlags, _) ← readUint8 cur
    .ok (.SISInfo iInstallType iInstallFlags)
  | .SISFileDescription .., cur => do
    let (iOperation, cur) ← readUint32 cur
    let (iOptions, cur) ← readUint32 cur
    let (iLength, cur) ← readUint64 cur
    let (iUncompressedLength, cur) ← readUint64 cur
    let (iIndex, _) ← readUint32 cur
    .ok (.SISFileDescription iOperation iOptions iLength iUncompressedLength iIndex)
  | c, _ => .ok c

/-- The bytes a class keeps for the scalars after its elements. -/
def CompoundClass.trailingLength : CompoundClass → ℕ
  | SISInfo => 2
  | SISFileDescription => 28
  | _ => 0

/-- The declared length of the field at the cursor passes the end of the memory. -/
def Cursor.overruns (cur : Cursor) : Bool :=
  cur.mem.length < 8 + ofLE ((cur.mem.drop 4).take 4)

mutual

/-- `Load` of a field of class `c`. -/
def load (confine : Bool) : ℕ → FieldClass → Cursor → Res SISField
  | 0, _, _ => .error .outOfFuel
  | _ + 1, .leaf c, cur => do
    let l ← Leaf.load c cur
    .ok (.leaf l)
  | n + 1, .SISArray, cur => do
    let (iType, cur) ← readUint32 cur
    let iElements ← loadArrayElements confine n iType cur
    .ok (.SISArray iType iElements)
  | n + 1, .compound c, cur =>
    if cur.aLength < c.trailingLength then .error (.throws .SISFieldReadErr)
    else do
      let (obj, cur) ← Compound.loadLeading c cur
      let inner := cur.aLength - c.trailingLength
      let iElements ← loadElements confine n (cur.region confine inner)
      let obj ← obj.loadTrailing ⟨cur.mem.drop inner, c.trailingLength⟩
      .ok (.compound obj iElements)

/-- `SISField::LoadOneField`. -/
def loadOneField (confine : Bool) : ℕ → Cursor → Res (Option SISField × Cursor)
  | 0, _ => .error .outOfFuel
  | n + 1, cur =>
    if cur.aLength = 0 then .ok (none, cur)
    else do
      let (type, cur) ← readUint32 cur
      let (length, cur) ← readUint32 cur
      match newObject type with
      | none => .error (.throws .SISFieldBadSourceFile)
      | some c => do
        let field ← load confine n c (cur.region confine length.toNat)
        .ok (some field, cur.advance length.toNat)

/-- The loop of `SISCompound::Load`. -/
def loadElements (confine : Bool) : ℕ → Cursor → Res (List SISField)
  | 0, _ => .error .outOfFuel
  | n + 1, cur =>
    if cur.aLength = 0 then .ok []
    else do
      let (field, next) ← loadOneField confine n cur
      if confine && cur.overruns then .error .outOfBounds
      else
        match field with
        | none => .error .nullField
        | some f => do
          let fs ← loadElements confine n next
          .ok (f :: fs)

/-- The loop of `SISArray::Load`. -/
def loadArrayElements (confine : Bool) : ℕ → UInt32 → Cursor → Res (List SISField)
  | 0, _, _ => .error .outOfFuel
  | n + 1, iType, cur =>
    if cur.aLength = 0 then .ok []
    else do
      let (length, cur) ← readUint32 cur
      match newObject iType with
      | none => .error .nullField
      | some c => do
        let f ← load confine n c (cur.region confine length.toNat)
        if confine && cur.mem.length < length.toNat then .error .outOfBounds
        -- `AddElement`
        else if f.id ≠ iType then .error .aborts
        else do
          let fs ← loadArrayElements confine n iType (cur.advance length.toNat)
          .ok (f :: fs)

end

/-- Enough fuel for a run over `mem`. -/
def loadFuel (mem : Bytes) : ℕ := mem.length + 1

/-- `LoadOneField` on a whole buffer. -/
def loadBuffer (s : Bytes) : Res (Option SISField × Cursor) :=
  loadOneField false (loadFuel s) ⟨s, s.length⟩

end GnuPoc.Sis
