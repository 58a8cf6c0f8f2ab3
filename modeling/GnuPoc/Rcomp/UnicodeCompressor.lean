import GnuPoc.Lib.RingBuffer
import GnuPoc.Rcomp.UnicodeState

/-!
# GnuPoc.Rcomp.UnicodeCompressor — compressing 16-bit characters (`unicode_compressor.cpp`)

Characters wait in a queue of four, bytes in a queue of twelve.  A full queue of characters gives out those that
the current window has, and a run of one treatment, for which a window or a mode may be selected.  The output is
limited: what does not fit stays in the queues.
-/

namespace GnuPoc.Rcomp

open GnuPoc.Lib

/-! ### Treatments -/

def EPlainUnicode : ℤ := -2
def EPlainASCII : ℤ := -1
def EFirstDynamic : ℤ := 0
def ELastDynamic : ℤ := 255
def EFirstStatic : ℤ := 256
def ELastStatic : ℤ := 263

/-- A character and its treatment. -/
structure TAction where
  iCode : UInt16
  iTreatment : ℤ

/-- What the constructor of `TAction` makes of a code. -/
def treatment (aCode : ℕ) : ℤ :=
  if EncodeAsIs aCode then EPlainASCII
  else if DynamicWindowOffsetIndex aCode ≠ -1 then DynamicWindowOffsetIndex aCode
  else if StaticWindowIndex aCode ≠ -1 then StaticWindowIndex aCode + EFirstStatic
  else EPlainUnicode

def TAction.ofCode (aCode : UInt16) : TAction := ⟨aCode, treatment aCode.toNat⟩

/-! ### The compressor -/

abbrev EMaxInputBufferSize : ℕ := 4
abbrev EMaxOutputBufferSize : ℕ := 12

/-- `Panic(EOutputBufferOverflow)`. -/
def EOutputBufferOverflow : Stop := .exits 102

/-- `iOutput` is what has been written to the buffer of the call. -/
structure TUnicodeCompressor where
  iUnicodeMode : Bool
  iActiveWindowBase : ℕ
  iDynamicWindow : Fin 8 → ℕ
  iDynamicWindowIndex : Fin 8
  iInputBuffer : RingBuffer TAction EMaxInputBufferSize
  iOutputBuffer : RingBuffer UInt8 EMaxOutputBufferSize
  iUnicodeWords : ℕ
  iCompressedBytes : ℕ
  iOutput : Bytes

namespace TUnicodeCompressor

def reset : TUnicodeCompressor where
  iUnicodeMode := false
  iActiveWindowBase := 0x0080
  iDynamicWindow := iDynamicWindowDefault
  iDynamicWindowIndex := Reader.start.iDynamicWindowIndex
  iInputBuffer := ⟨fun _ => ⟨0, EPlainUnicode⟩, 0, 0⟩
  iOutputBuffer := ⟨fun _ => 0, 0, 0⟩
  iUnicodeWords := 0
  iCompressedBytes := 0
  iOutput := []

def WriteByte (aByte : ℕ) (c : TUnicodeCompressor) : Run TUnicodeCompressor :=
  if EMaxOutputBufferSize ≤ c.iOutputBuffer.size then .error EOutputBufferOverflow
  else .ok { c with iOutputBuffer := c.iOutputBuffer.push (UInt8.ofNat aByte) }

/-- The first dynamic window that has a property. -/
def findWindow (c : TUnicodeCompressor) (p : ℕ → Bool) : Option (Fin 8) :=
  (List.finRange 8).find? fun i => p (c.iDynamicWindow i)

def WriteUCharacter (aCode : ℕ) (c : TUnicodeCompressor) : Run TUnicodeCompressor := do
  let c ← (if 0xE000 ≤ aCode ∧ aCode ≤ 0xF2FF then c.WriteByte UQU else .ok c)
  let c ← c.WriteByte (aCode / 0x100)
  c.WriteByte (aCode % 0x100)

def WriteSCharacter (aAction : TAction) (c : TUnicodeCompressor) : Run TUnicodeCompressor :=
  let aCode := aAction.iCode.toNat
  if aAction.iTreatment = EPlainASCII then c.WriteByte aCode
  else if EFirstStatic ≤ aAction.iTreatment ∧ aAction.iTreatment ≤ ELastStatic then do
    let c ← c.WriteByte (SQ0 + (aAction.iTreatment - EFirstStatic).toNat)
    c.WriteByte aCode
  else if inWindow aCode c.iActiveWindowBase then c.WriteByte (aCode - c.iActiveWindowBase + 0x80)
  else
    match c.findWindow (inWindow aCode) with
    | some i => do
      let c' ← c.WriteByte (SQ0 + i.val)
      c'.WriteByte (aCode - c.iDynamicWindow i + 0x80)
    | none => do
      let c ← c.WriteByte SQU
      let c ← c.WriteByte (aCode / 0x100)
      c.WriteByte (aCode % 0x100)

def WriteCharacter (aAction : TAction) (c : TUnicodeCompressor) : Run TUnicodeCompressor :=
  if c.iUnicodeMode then c.WriteUCharacter aAction.iCode.toNat else c.WriteSCharacter aAction

def WriteCharacterFromBuffer (c : TUnicodeCompressor) : Run TUnicodeCompressor :=
  { c with iInputBuffer := c.iInputBuffer.pop }.WriteCharacter (c.iInputBuffer.get 0)

def SelectTreatment (aTreatment : ℤ) (c : TUnicodeCompressor) : Run TUnicodeCompressor :=
  if aTreatment = EPlainUnicode then
    if c.iUnicodeMode then .ok c
    else do
      let c ← c.WriteByte SCU
      .ok { c with iUnicodeMode := true }
  else if aTreatment = EPlainASCII then
    if c.iUnicodeMode then do
      let c ← c.WriteByte (UC0 + c.iDynamicWindowIndex.val)
      .ok { c with iUnicodeMode := false }
    else .ok c
  else if EFirstDynamic ≤ aTreatment ∧ aTreatment ≤ ELastDynamic then
    let base := DynamicWindowBase aTreatment
    match c.findWindow (base == ·) with
    | some i => do
      let c ← (if c.iUnicodeMode then c.WriteByte (UC0 + i.val)
        else if i ≠ c.iDynamicWindowIndex then c.WriteByte (SC0 + i.val) else .ok c)
      .ok { c with iUnicodeMode := false, iDynamicWindowIndex := i, iActiveWindowBase := base }
    | none => do
      let c ← c.WriteByte ((if c.iUnicodeMode then UD0 else SD0) + 4)
      let c ← c.WriteByte aTreatment.toNat
      .ok { c with
        iUnicodeMode := false
        iDynamicWindowIndex := redefinedWindow
        iDynamicWindow := Function.update c.iDynamicWindow redefinedWindow base
        iActiveWindowBase := base }
  else .ok c

/-- The loop over the leading characters that can be passed through, with the number that there are. -/
def WriteLeading : ℕ → TUnicodeCompressor → Run TUnicodeCompressor
  | 0, c => .ok c
  | n + 1, c =>
    let action := c.iInputBuffer.get 0
    if action.iTreatment = EPlainASCII ∨ inWindow action.iCode.toNat c.iActiveWindowBase then do
      let c ← c.WriteCharacterFromBuffer
      WriteLeading n c
    else .ok c

def WriteCharactersFromBuffer : ℕ → TUnicodeCompressor → Run TUnicodeCompressor
  | 0, c => .ok c
  | n + 1, c => do
    let c ← c.WriteCharacterFromBuffer
    WriteCharactersFromBuffer n c

/-- The run of characters with the treatment of the first. -/
def runSize (c : TUnicodeCompressor) : ℕ :=
  (c.iInputBuffer.toList.takeWhile fun action => action.iTreatment == (c.iInputBuffer.get 0).iTreatment).length

/-- `WriteRunL` up to the flush. -/
def WriteRun (c : TUnicodeCompressor) : Run TUnicodeCompressor := do
  let c ← (if c.iUnicodeMode then .ok c else c.WriteLeading c.iInputBuffer.size)
  if 0 < c.iInputBuffer.size then do
    let run_size := c.runSize
    let c ← (if 1 < run_size then c.SelectTreatment (c.iInputBuffer.get 0).iTreatment else .ok c)
    c.WriteCharactersFromBuffer run_size
  else .ok c

/-- The loop of `FlushOutputBufferL`, with the number of bytes that there are. -/
def flush (iMaxCompressedBytes : ℕ) : ℕ → TUnicodeCompressor → TUnicodeCompressor
  | 0, c => c
  | n + 1, c =>
    if c.iCompressedBytes < iMaxCompressedBytes then
      flush iMaxCompressedBytes n { c with
        iOutput := c.iOutput ++ [c.iOutputBuffer.get 0]
        iCompressedBytes := c.iCompressedBytes + 1
        iOutputBuffer := c.iOutputBuffer.pop }
    else c

def FlushOutputBufferL (iMaxCompressedBytes : ℕ) (c : TUnicodeCompressor) : TUnicodeCompressor :=
  flush iMaxCompressedBytes c.iOutputBuffer.size c

def WriteRunL (iMaxCompressedBytes : ℕ) (c : TUnicodeCompressor) : Run TUnicodeCompressor := do
  let c ← c.WriteRun
  .ok (c.FlushOutputBufferL iMaxCompressedBytes)

/-- The loop of `FlushInputBufferL`; every run takes a character, so that there are no more runs than these. -/
def flushInput (iMaxCompressedBytes : ℕ) : ℕ → TUnicodeCompressor → Run TUnicodeCompressor
  | 0, c => if 0 < c.iInputBuffer.size ∧ c.iCompressedBytes < iMaxCompressedBytes then .error .outOfFuel else .ok c
  | n + 1, c =>
    if 0 < c.iInputBuffer.size ∧ c.iCompressedBytes < iMaxCompressedBytes then do
      let c ← c.WriteRunL iMaxCompressedBytes
      flushInput iMaxCompressedBytes n c
    else .ok c

def FlushInputBufferL (iMaxCompressedBytes : ℕ) (c : TUnicodeCompressor) : Run TUnicodeCompressor :=
  flushInput iMaxCompressedBytes c.iInputBuffer.size c

/-- A character of the source is put in the queue. -/
def readCharacter (x : UInt16) (c : TUnicodeCompressor) : TUnicodeCompressor :=
  { c with
    iInputBuffer := c.iInputBuffer.push (TAction.ofCode x)
    iUnicodeWords := c.iUnicodeWords + 1 }

/-- The loop of `DoCompressL` over the characters of the source. -/
def readCharacters (iMaxCompressedBytes : ℕ) : List UInt16 → TUnicodeCompressor → Run TUnicodeCompressor
  | [], c => .ok c
  | x :: xs, c =>
    if c.iCompressedBytes < iMaxCompressedBytes then do
      let c := c.readCharacter x
      let c ← (if c.iInputBuffer.size = EMaxInputBufferSize then c.WriteRunL iMaxCompressedBytes else .ok c)
      readCharacters iMaxCompressedBytes xs c
    else .ok c

/-- `DoCompressL` to memory; no characters stand for no input. -/
def DoCompressL (aMaxOutputBytes : ℕ) (aInput : List UInt16) (c : TUnicodeCompressor) : Run TUnicodeCompressor := do
  let c := { c with iCompressedBytes := 0, iUnicodeWords := 0, iOutput := [] }.FlushOutputBufferL aMaxOutputBytes
  let c ← readCharacters aMaxOutputBytes aInput c
  c.FlushInputBufferL aMaxOutputBytes

end TUnicodeCompressor

/-- `CompressUnicode`: what is in the buffer, and `aOutputLength`.  The second call, which flushes, has the same
buffer. -/
def CompressUnicode (aMaximumOutputLength : ℕ) (aInput : List UInt16) : Run (Bytes × ℕ) := do
  let c ← TUnicodeCompressor.reset.DoCompressL aMaximumOutputLength aInput
  let c' ← c.DoCompressL aMaximumOutputLength []
  if c.iUnicodeWords ≠ aInput.length then .error (.exits 1)
  else .ok (c'.iOutput ++ c.iOutput.drop c'.iOutput.length, c.iCompressedBytes + c'.iCompressedBytes)

end GnuPoc.Rcomp
