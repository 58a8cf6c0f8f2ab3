import GnuPoc.Rcomp.Layout
import Mathlib.Logic.Function.Basic

/-!
# GnuPoc.Rcomp.DataStream — the stream a resource is collected in (`rcbinstr.cpp`)

`ResourceDataStream` keeps the bytes of a resource, the strings compressed, with marks between them; the three
passes of `StreamOutReturningWhetherContainsCompressedUnicode` give it out.  What a mark's `iOtherData` holds
after the first pass is kept by the index of the mark; `int` sizes are natural numbers.
-/

namespace GnuPoc.Rcomp

open GnuPoc.Lib

/-- Why a run does not come back: an assertion, where those on the length of a run and on an offset name the
number, `exit`, or the fuel of the model. -/
inductive Stop
  | assertion
  | runLength (aInteger : ℕ)
  | offset (aOffsetToSet : ℕ)
  | exits (status : ℕ)
  | outOfFuel
  deriving DecidableEq, Repr

abbrev Run (α : Type) := Except Stop α

@[simp] theorem run_ok_bind {α β : Type} (a : α) (f : α → Run β) : ((Except.ok a : Run α) >>= f) = f a := rfl

@[simp] theorem run_error_bind {α β : Type} (e : Stop) (f : α → Run β) :
    ((Except.error e : Run α) >>= f) = .error e := rfl

def assert (condition : Bool) : Run Unit := if condition then .ok () else .error .assertion

@[simp] theorem assert_true : assert true = .ok () := rfl

/-! ### The file -/

/-- `RCBinaryStream`: the file and `tellp()`. -/
structure RCBinaryStream where
  file : Bytes
  pos : ℕ
  deriving DecidableEq

def RCBinaryStream.Write (os : RCBinaryStream) (bytes : Bytes) : RCBinaryStream where
  file := if bytes = [] then os.file else writeAt os.file os.pos bytes
  pos := os.pos + bytes.length

def RCBinaryStream.GetPosition (os : RCBinaryStream) : ℕ := os.pos

def RCBinaryStream.SetPosition (os : RCBinaryStream) (aNewPosition : ℕ) : RCBinaryStream :=
  { os with pos := aNewPosition }

def SizeOfCompressedInteger (aInteger : ℕ) : Run ℕ :=
  if aInteger < 0x8000 then .ok (if 0x80 ≤ aInteger then 2 else 1) else .error (.runLength aInteger)

/-- The bytes that `WriteCompressedInteger` writes. -/
def compressedInteger (aInteger : ℕ) : Bytes :=
  if 0x80 ≤ aInteger then [UInt8.ofNat (aInteger / 0x100 + 0x80), UInt8.ofNat (aInteger % 0x100)]
  else [UInt8.ofNat aInteger]

def RCBinaryStream.WriteCompressedInteger (os : RCBinaryStream) (aInteger : ℕ) : Run RCBinaryStream :=
  if aInteger < 0x8000 then .ok (os.Write (compressedInteger aInteger)) else .error (.runLength aInteger)

/-! ### Marks -/

/-- `MarkType`, with what does not change of `iOtherData`: the type of a prefix, the uncompressed run, the
variable for a position. -/
inductive MarkType
  | StartOfBlockWithSizePrefix (aDataTypeOfSizePrefix : DataType)
  | EndOfBlockWithSizePrefix
  | StartOfCompressedUnicodeRun (runWhenUncompressed : List UInt16)
  | EndOfCompressedUnicodeRun
  | TwoByteAlignmentPoint
  | EnquireStreamPositionWhenKnown (aStreamPosition : ℕ)
  deriving DecidableEq

structure Mark where
  iBufferPosition : ℕ
  iMarkType : MarkType
  deriving DecidableEq

structure ResourceDataStream where
  iBuffer : Bytes
  iArrayOfMarks : List Mark
  iContainsCompressedUnicode : Bool
  deriving DecidableEq

/-- A new stream. -/
def ResourceDataStream.empty : ResourceDataStream := ⟨[], [], false⟩

namespace ResourceDataStream

def iNumberOfBytesUsed (s : ResourceDataStream) : ℕ := s.iBuffer.length

def AppendMark (s : ResourceDataStream) (type : MarkType) : ResourceDataStream :=
  { s with iArrayOfMarks := s.iArrayOfMarks ++ [⟨s.iNumberOfBytesUsed, type⟩] }

def StartOfBlockWithSizePrefix (s : ResourceDataStream) (type : DataType) : ResourceDataStream :=
  s.AppendMark (.StartOfBlockWithSizePrefix type)

def EndOfBlockWithSizePrefix (s : ResourceDataStream) : ResourceDataStream :=
  s.AppendMark .EndOfBlockWithSizePrefix

def TwoByteAlignmentPoint (s : ResourceDataStream) : ResourceDataStream := s.AppendMark .TwoByteAlignmentPoint

def EnquireStreamPositionWhenKnown (s : ResourceDataStream) (aStreamPosition : ℕ) : ResourceDataStream :=
  s.AppendMark (.EnquireStreamPositionWhenKnown aStreamPosition)

def StreamIn (s : ResourceDataStream) (bytes : Bytes) : ResourceDataStream :=
  { s with iBuffer := s.iBuffer ++ bytes }

def MakePlaceHolder (s : ResourceDataStream) (aNumberOfBytes : ℕ) : ResourceDataStream :=
  s.StreamIn (List.replicate aNumberOfBytes 0xeb)

def isStartOfBlock (mark : Mark) : Bool :=
  match mark.iMarkType with
  | .StartOfBlockWithSizePrefix _ => true
  | _ => false

/-- The first run must be a compressed one: if it does not begin the resource, an empty one is put there. -/
def StartOfCompressedUnicodeRun (s : ResourceDataStream) (words : List UInt16) : ResourceDataStream :=
  let atStart : List Mark :=
    if !s.iContainsCompressedUnicode && (0 < s.iNumberOfBytesUsed || s.iArrayOfMarks.any isStartOfBlock) then
      [⟨0, .StartOfCompressedUnicodeRun []⟩, ⟨0, .EndOfCompressedUnicodeRun⟩]
    else []
  { s with
    iArrayOfMarks := atStart ++ s.iArrayOfMarks ++ [⟨s.iNumberOfBytesUsed, .StartOfCompressedUnicodeRun words⟩]
    iContainsCompressedUnicode := true }

def EndOfCompressedUnicodeRun (s : ResourceDataStream) : ResourceDataStream :=
  s.AppendMark .EndOfCompressedUnicodeRun

/-- `StreamOutCompressingIfReducesSize` of `rcostrm.cpp`; `compress` is `CompressUnicode`. -/
def StreamOutCompressingIfReducesSize (compress : List UInt16 → Bytes) (s : ResourceDataStream)
    (words : List UInt16) : ResourceDataStream :=
  let compressed := compress words
  if compressed.length < 2 * words.length then
    ((s.StartOfCompressedUnicodeRun words).StreamIn compressed).EndOfCompressedUnicodeRun
  else if 0 < 2 * words.length then s.TwoByteAlignmentPoint.StreamIn (wordBytes words)
  else s

end ResourceDataStream

/-- What a resource item does with the stream. -/
inductive Call
  | StreamIn (bytes : Bytes)
  | MakePlaceHolder (aNumberOfBytes : ℕ)
  | StartOfBlockWithSizePrefix (type : DataType)
  | EndOfBlockWithSizePrefix
  | StreamOutCompressingIfReducesSize (words : List UInt16)
  | link (aStreamPosition : ℕ) (type : DataType)
  deriving DecidableEq

/-- A `link` is what the constructor of a `LinkItem` and its caller do: they enquire after the position of a
place holder. -/
def ResourceDataStream.perform (compress : List UInt16 → Bytes) (s : ResourceDataStream) :
    Call → ResourceDataStream
  | .StreamIn bytes => s.StreamIn bytes
  | .MakePlaceHolder n => s.MakePlaceHolder n
  | .StartOfBlockWithSizePrefix type => s.StartOfBlockWithSizePrefix type
  | .EndOfBlockWithSizePrefix => s.EndOfBlockWithSizePrefix
  | .StreamOutCompressingIfReducesSize words => s.StreamOutCompressingIfReducesSize compress words
  | .link k type => (s.EnquireStreamPositionWhenKnown k).MakePlaceHolder (GetSize type)

def ResourceDataStream.collect (compress : List UInt16 → Bytes) (calls : List Call) : ResourceDataStream :=
  calls.foldl (ResourceDataStream.perform compress) .empty

/-! ### Passes -/

/-- `NumberOfBytesToNextMark(-1)`. -/
def bytesBeforeFirstMark (used : ℕ) (marks : List Mark) : ℕ := (marks.head?.map Mark.iBufferPosition).getD used

/-- `NumberOfBytesToNextMark` of a mark with these behind it. -/
def NumberOfBytesToNextMark (used : ℕ) (mark : Mark) (rest : List Mark) : ℕ :=
  (rest.head?.map Mark.iBufferPosition).getD used - mark.iBufferPosition

/-- The assertions on the sizes of a compressed run. -/
def checkRun (symbianV6hack encountered : Bool) (compressed uncompressed : ℕ) : Run Unit := do
  assert (0 < uncompressed || !encountered)
  assert (0 < compressed || !encountered)
  assert (symbianV6hack || compressed < uncompressed || (!encountered && compressed == 0 && uncompressed == 0))

/-- `numberOfBytesWhenCompressed`. -/
def numberOfBytesWhenCompressed (symbianV6hack : Bool) (words : List UInt16) (start stop : Mark) : ℕ :=
  if symbianV6hack then 2 * words.length + 100 else stop.iBufferPosition - start.iBufferPosition

/-- `numberOfBytesWhenUncompressedIncludingAnyPrecedingPaddingByte`. -/
def sizeWithPadding (uncompressedSize : ℕ) (words : List UInt16) : ℕ :=
  2 * words.length + if uncompressedSize % 2 ≠ 0 then 1 else 0

/-- The variables of the first pass.  `address` is the mark whose run is being counted; `sizes`, `lengths` and
`paddings` are what the marks' `iOtherData` points to or holds. -/
structure FirstPass where
  runLength : ℕ
  uncompressedSize : ℕ
  encountered : Bool
  address : Option ℕ
  stack : List (ℕ × ℕ)
  sizes : ℕ → ℕ
  lengths : ℕ → ℕ
  paddings : ℕ → Bool

/-- `*addressToWriteSizeOfCompressedIntegerTo=runLength`, if there is one. -/
def FirstPass.flush (st : FirstPass) : FirstPass :=
  match st.address with
  | some j => { st with
      lengths := Function.update st.lengths j st.runLength
      address := none }
  | none => st

def FirstPass.skip (st : FirstPass) (n : ℕ) : FirstPass :=
  { st with
    runLength := st.runLength + n
    uncompressedSize := st.uncompressedSize + n }

/-- What the first pass does at a mark, except the start of a compressed run. -/
def FirstPass.mark (i : ℕ) (st : FirstPass) : MarkType → Run FirstPass
  | .StartOfBlockWithSizePrefix type =>
    let st := st.skip (GetSize type)
    .ok { st with stack := (st.uncompressedSize, i) :: st.stack }
  | .EndOfBlockWithSizePrefix =>
    match st.stack with
    | [] => .error .assertion
    | (start, j) :: stack => .ok { st with
        stack := stack
        sizes := Function.update st.sizes j (st.uncompressedSize - start) }
  | .TwoByteAlignmentPoint =>
    let needPaddingByte : Bool := st.uncompressedSize % 2 ≠ 0
    let st := if needPaddingByte then st.skip 1 else st
    .ok { st with paddings := Function.update st.paddings i needPaddingByte }
  | .EnquireStreamPositionWhenKnown _ => .ok st
  | _ => .error .assertion

/-- The first pass at the start of a compressed run whose end is mark `i`. -/
def FirstPass.run (i : ℕ) (words : List UInt16) (st : FirstPass) : FirstPass :=
  { st.flush with
    runLength := 0
    uncompressedSize := st.uncompressedSize + sizeWithPadding st.uncompressedSize words
    encountered := true
    address := some i }

def firstLoop (symbianV6hack : Bool) (used : ℕ) : ℕ → List Mark → FirstPass → Run FirstPass
  | _, [], st => .ok st
  | i, mark :: marks, st =>
    match mark.iMarkType, marks with
    | .StartOfCompressedUnicodeRun words, nextMark :: rest => do
      assert (nextMark.iMarkType == .EndOfCompressedUnicodeRun)
      checkRun symbianV6hack st.encountered (numberOfBytesWhenCompressed symbianV6hack words mark nextMark)
        (2 * words.length)
      firstLoop symbianV6hack used (i + 2) rest
        ((st.run (i + 1) words).skip (NumberOfBytesToNextMark used nextMark rest))
    | type, rest => do
      let st ← st.mark i type
      firstLoop symbianV6hack used (i + 1) rest (st.skip (NumberOfBytesToNextMark used mark rest))

/-- What the first pass leaves: `lengthOfLastRun` and the numbers of the marks. -/
structure Lengths where
  aSizeWhenUncompressed : ℕ
  encountered : Bool
  lengthOfLastRun : Option ℕ
  sizes : ℕ → ℕ
  lengths : ℕ → ℕ
  paddings : ℕ → Bool

def firstPass (symbianV6hack : Bool) (s : ResourceDataStream) : Run Lengths := do
  let before := bytesBeforeFirstMark s.iNumberOfBytesUsed s.iArrayOfMarks
  let st ← firstLoop symbianV6hack s.iNumberOfBytesUsed 0 s.iArrayOfMarks
    ⟨before, before, false, none, [], fun _ => 0, fun _ => 0, fun _ => false⟩
  let flushed := st.flush
  .ok ⟨st.uncompressedSize, st.encountered, st.address, flushed.sizes, flushed.lengths, flushed.paddings⟩

/-- The lengths in front of and behind a compressed run, as long as they are written. -/
def lengthsEitherSide (compressed : ℕ) (isLast : Bool) (lengthOfOtherStuffRun : ℕ) : Run ℕ := do
  let front ← SizeOfCompressedInteger compressed
  if !isLast || 0 < lengthOfOtherStuffRun then do
    let behind ← SizeOfCompressedInteger lengthOfOtherStuffRun
    .ok (front + compressed + behind)
  else .ok (front + compressed)

/-- Whether the second pass gets rid of a compressed run. -/
def gainsNothing (isFirst isLast : Bool) (compressed uncompressed lengthOfOtherStuffRun : ℕ) : Run Bool :=
  if isLast || !isFirst then do
    let size ← lengthsEitherSide compressed isLast lengthOfOtherStuffRun
    .ok (uncompressed ≤ size)
  else .ok false

/-- The uncompressed size behind a mark other than a run. -/
def sizeBehind (uncompressedSize : ℕ) : MarkType → ℕ
  | .StartOfBlockWithSizePrefix type => uncompressedSize + GetSize type
  | .TwoByteAlignmentPoint => if uncompressedSize % 2 ≠ 0 then uncompressedSize + 1 else uncompressedSize
  | _ => uncompressedSize

/-- `assert((mark.iOtherData!=0)==needPaddingByte)`. -/
def checkPadding (fp : Lengths) (i uncompressedSize : ℕ) : MarkType → Run Unit
  | .TwoByteAlignmentPoint => assert (fp.paddings i == decide (uncompressedSize % 2 ≠ 0))
  | _ => .ok ()

/-- The second pass: the first run that it gets rid of, and whether that is the only one. -/
def secondLoop (symbianV6hack : Bool) (used : ℕ) (fp : Lengths) :
    ℕ → List Mark → ℕ → Bool → Run (Option (ℕ × Bool))
  | _, [], uncompressedSize, _ => do
    assert (fp.aSizeWhenUncompressed == uncompressedSize)
    .ok none
  | i, mark :: marks, uncompressedSize, encountered =>
    match mark.iMarkType, marks with
    | .StartOfCompressedUnicodeRun words, nextMark :: rest => do
      let compressed := numberOfBytesWhenCompressed symbianV6hack words mark nextMark
      checkRun symbianV6hack encountered compressed (2 * words.length)
      let isLast := decide (fp.lengthOfLastRun = some (i + 1))
      let useless ← gainsNothing (!encountered) isLast compressed (sizeWithPadding uncompressedSize words)
        (fp.lengths (i + 1))
      if useless then .ok (some (i, !encountered && isLast))
      else secondLoop symbianV6hack used fp (i + 2) rest (uncompressedSize +
        sizeWithPadding uncompressedSize words + NumberOfBytesToNextMark used nextMark rest) true
    | type, rest => do
      checkPadding fp i uncompressedSize type
      secondLoop symbianV6hack used fp (i + 1) rest
        (sizeBehind uncompressedSize type + NumberOfBytesToNextMark used mark rest) encountered

def secondPass (symbianV6hack : Bool) (s : ResourceDataStream) (fp : Lengths) : Run (Option (ℕ × Bool)) :=
  secondLoop symbianV6hack s.iNumberOfBytesUsed fp 0 s.iArrayOfMarks
    (bytesBeforeFirstMark s.iNumberOfBytesUsed s.iArrayOfMarks) false

/-- The variables of the third pass; `positions` are the stream positions that were enquired after. -/
structure ThirdPass where
  aStream : RCBinaryStream
  bufferIndex : ℕ
  uncompressedSize : ℕ
  encountered : Bool
  positions : List (ℕ × ℕ)

/-- `aStream.Write(iBuffer+bufferIndex, n)`. -/
def ThirdPass.copy (iBuffer : Bytes) (n : ℕ) (st : ThirdPass) : ThirdPass :=
  { st with
    aStream := st.aStream.Write (readAt iBuffer st.bufferIndex n)
    bufferIndex := st.bufferIndex + n }

/-- What the third pass writes at a mark other than a run. -/
def ThirdPass.mark (fp : Lengths) (i : ℕ) (st : ThirdPass) : MarkType → ThirdPass
  | .StartOfBlockWithSizePrefix type =>
    { st with aStream := st.aStream.Write (⟨type, fp.sizes i⟩ : NumericValue).iData }
  | .TwoByteAlignmentPoint => { st with aStream := st.aStream.Write (padding st.uncompressedSize) }
  | .EnquireStreamPositionWhenKnown k => { st with positions := st.positions ++ [(k, st.aStream.GetPosition)] }
  | _ => st

def writeLength (dump : Bool) (n : ℕ) (os : RCBinaryStream) : Run RCBinaryStream :=
  if dump then .ok os else os.WriteCompressedInteger n

/-- What the third pass writes for a run: its length and bytes and, if need be, the length of what follows. -/
def ThirdPass.run (dump : Bool) (iBuffer : Bytes) (compressed uncompressed : ℕ) (isLast : Bool)
    (lengthOfOtherStuffRun : ℕ) (st : ThirdPass) : Run ThirdPass := do
  let os ← writeLength dump compressed st.aStream
  let st : ThirdPass := ThirdPass.copy iBuffer compressed { st with aStream := os }
  let st : ThirdPass := { st with
    uncompressedSize := st.uncompressedSize + uncompressed
    encountered := true }
  if !isLast || 0 < lengthOfOtherStuffRun then do
    let os ← writeLength dump lengthOfOtherStuffRun st.aStream
    .ok { st with aStream := os }
  else .ok st

/-- The bytes up to the next mark. -/
def ThirdPass.toNextMark (iBuffer : Bytes) (n : ℕ) (st : ThirdPass) : ThirdPass :=
  let st := st.copy iBuffer n
  { st with uncompressedSize := st.uncompressedSize + n }

def thirdLoop (symbianV6hack dump : Bool) (iBuffer : Bytes) (fp : Lengths) :
    ℕ → List Mark → ThirdPass → Run ThirdPass
  | _, [], st => do
    assert (fp.aSizeWhenUncompressed == st.uncompressedSize)
    .ok st
  | i, mark :: marks, st =>
    match mark.iMarkType, marks with
    | .StartOfCompressedUnicodeRun words, nextMark :: rest => do
      let compressed := numberOfBytesWhenCompressed symbianV6hack words mark nextMark
      checkRun symbianV6hack st.encountered compressed (2 * words.length)
      let st ← st.run dump iBuffer compressed (sizeWithPadding st.uncompressedSize words)
        (decide (fp.lengthOfLastRun = some (i + 1))) (fp.lengths (i + 1))
      thirdLoop symbianV6hack dump iBuffer fp (i + 2) rest
        (st.toNextMark iBuffer (NumberOfBytesToNextMark iBuffer.length nextMark rest))
    | type, rest => do
      checkPadding fp i st.uncompressedSize type
      let written := st.mark fp i type
      thirdLoop symbianV6hack dump iBuffer fp (i + 1) rest
        (ThirdPass.toNextMark iBuffer (NumberOfBytesToNextMark iBuffer.length mark rest)
          { written with uncompressedSize := sizeBehind st.uncompressedSize type })

/-- The result of `StreamOutReturningWhetherContainsCompressedUnicode`, `aSizeWhenUncompressed`, the stream and
the positions that were enquired after. -/
structure StreamedOut where
  containsCompressedUnicode : Bool
  aSizeWhenUncompressed : ℕ
  aStream : RCBinaryStream
  positions : List (ℕ × ℕ)
  deriving DecidableEq

def thirdPass (symbianV6hack dump : Bool) (s : ResourceDataStream) (fp : Lengths) (aStream : RCBinaryStream) :
    Run StreamedOut := do
  let before := bytesBeforeFirstMark s.iNumberOfBytesUsed s.iArrayOfMarks
  let st : ThirdPass := ThirdPass.toNextMark s.iBuffer before ⟨aStream, 0, 0, false, []⟩
  let st ← thirdLoop symbianV6hack dump s.iBuffer fp 0 s.iArrayOfMarks st
  assert (fp.encountered == s.iContainsCompressedUnicode)
  assert (st.encountered == s.iContainsCompressedUnicode)
  .ok ⟨fp.encountered, fp.aSizeWhenUncompressed, st.aStream, st.positions⟩

/-- `ConvertCompressedRunToUncompressed`: the marks of the run become one for its alignment, its bytes the
uncompressed ones, and every mark behind moves. -/
def ResourceDataStream.ConvertCompressedRunToUncompressed (s : ResourceDataStream) (i : ℕ) :
    Run ResourceDataStream :=
  match s.iArrayOfMarks.drop i with
  | ⟨start, .StartOfCompressedUnicodeRun words⟩ :: ⟨stop, .EndOfCompressedUnicodeRun⟩ :: behind =>
    let numberOfExtraBytes := 2 * words.length - (stop - start)
    .ok { s with
      iBuffer := s.iBuffer.take start ++ wordBytes words ++ s.iBuffer.drop stop
      iArrayOfMarks := s.iArrayOfMarks.take i ++
        (if stop - start = 0 then [] else [⟨start, .TwoByteAlignmentPoint⟩]) ++
        behind.map fun mark => { mark with iBufferPosition := mark.iBufferPosition + numberOfExtraBytes } }
  | _ => .error .assertion

def StreamOutReturningWhetherContainsCompressedUnicode (symbianV6hack dump : Bool) :
    ℕ → ResourceDataStream → RCBinaryStream → Run StreamedOut
  | 0, _, _ => .error .outOfFuel
  | fuel + 1, s, aStream => do
    let fp ← firstPass symbianV6hack s
    let useless ← secondPass symbianV6hack s fp
    match useless with
    | none => thirdPass symbianV6hack dump s fp aStream
    | some (i, isOnly) => do
      let s ← ResourceDataStream.ConvertCompressedRunToUncompressed
        { s with iContainsCompressedUnicode := s.iContainsCompressedUnicode && !isOnly } i
      StreamOutReturningWhetherContainsCompressedUnicode symbianV6hack dump fuel s aStream

end GnuPoc.Rcomp
