import GnuPoc.Deflate.BitOutput
import GnuPoc.Deflate.Deflater
import GnuPoc.Deflate.MetaCode

/-!
# GnuPoc.Deflate.DeflateOutput — segments as codes (`deflate.cpp`, `compress.cpp`)

A segment is handed on as codes and extra bits, which one class counts and the other one writes.  What is written is the
list of the calls of `TBitOutput`.
-/

namespace GnuPoc.Deflate

/-! ### `TEncoding` -/

def ELiterals : ℕ := 256
def ELengths : ℕ := (8 - 1) * 4
def EDistances : ℕ := (12 - 1) * 4
def ELitLens : ℕ := ELiterals + ELengths + 1
def EEos : ℕ := ELiterals + ELengths

def KDeflateDistCodeBase : ℕ := 0x200

structure TEncoding where
  iLitLen : Words
  iDistance : Words
  deriving DecidableEq, Repr

/-- After `FillZ`. -/
def TEncoding.zero : TEncoding := ⟨List.replicate ELitLens 0, List.replicate EDistances 0⟩

/-! ### `SegmentL` -/

/-- The calls of the virtual functions. -/
inductive Emit
  | LitLenL (aCode : ℕ)
  | OffsetL (aCode : ℕ)
  | ExtraL (aLen aBits : ℕ)
  deriving DecidableEq, Repr

/-- `while (len>=8)`. -/
def extraLoop (extralen len : ℕ) : ℕ × ℕ :=
  if 8 ≤ len then extraLoop (extralen + 1) (len >>> 1) else (extralen, len)
termination_by len
decreasing_by
  rw [Nat.shiftRight_eq_div_pow]
  omega

/-- A number as a code, and the extra bits if there are any. -/
def codeAndExtra (emit : ℕ → Emit) (base value : ℕ) : List Emit :=
  let (extralen, len) := extraLoop 0 value
  emit ((extralen <<< 2) + len + base) :: if extralen ≠ 0 then [.ExtraL extralen value] else []

/-- `SegmentL`; in all calls `aLength` is not below `KDeflateMinLength`, nor `aDistance` below one. -/
def SegmentL (aLength aDistance : ℕ) : List Emit :=
  codeAndExtra .LitLenL ELiterals (aLength - KDeflateMinLength) ++ codeAndExtra .OffsetL 0 (aDistance - 1)

def Segment.emits : Segment → List Emit
  | literal byte => [.LitLenL byte.toNat]
  | copy aLength aDistance => SegmentL aLength aDistance

/-- `MDeflater::DeflateL`, with the end mark. -/
def emitted (segments : List Segment) : List Emit := segments.flatMap Segment.emits ++ [.LitLenL EEos]

/-! ### `TDeflateStats` and `TDeflater` -/

def TDeflateStats (iEncoding : TEncoding) : Emit → Except Fault TEncoding
  | .LitLenL aCode => do
    let iLitLen ← modifyAt iEncoding.iLitLen aCode (· + 1)
    pure { iEncoding with iLitLen := iLitLen }
  | .OffsetL aCode => do
    let iDistance ← modifyAt iEncoding.iDistance aCode (· + 1)
    pure { iEncoding with iDistance := iDistance }
  | .ExtraL _ _ => pure iEncoding

def TDeflater (iEncoding : TEncoding) : Emit → Except Fault Write
  | .LitLenL aCode => do
    let code ← elementAt iEncoding.iLitLen aCode
    pure (.HuffmanL code)
  | .OffsetL aCode => do
    let code ← elementAt iEncoding.iDistance aCode
    pure (.HuffmanL code)
  | .ExtraL aLen aBits => pure (.WriteL (UInt32.ofNat aBits) aLen)

/-! ### The calls of `ExternalizeL` -/

def metaWrite (symbol : ℕ) : Write := .HuffmanL (HuffmanEncoding.getD symbol 0)

/-- The calls that `ExternalizeL` makes. -/
def externalizeWrites (aHuffman : Words) : Except Fault (List Write) :=
  externalizeLoop (fun symbol => [metaWrite symbol]) aHuffman metaList 0 0

/-! ### `DoDeflateL` and `DeflateL` -/

namespace Output

/-- `DoDeflateL` over an output: the calls before `PadL`.  The second pass hands on what the first one has counted; the
two arrays of nodes are new memory. -/
def DoDeflateL (litLenMemory distanceMemory : ℕ → Huffman.TNode) (aBuf : List UInt8) (aEncoding : TEncoding) :
    Except Stop (List Write) := do
  let segments ← Deflate.DeflateL aBuf
  let aEncoding ← ((emitted segments).foldlM TDeflateStats aEncoding : Except Fault TEncoding)
  let iLitLen ← Huffman.HuffmanL litLenMemory aEncoding.iLitLen
  let iDistance ← Huffman.HuffmanL distanceMemory aEncoding.iDistance
  let table ← externalizeWrites (iLitLen ++ iDistance)
  let litLenCodes ← Encoding iLitLen
  let distanceCodes ← Encoding iDistance
  let data ← ((emitted segments).mapM (TDeflater ⟨litLenCodes, distanceCodes⟩) : Except Fault (List Write))
  pure (table ++ data)

def DeflateL (litLenMemory distanceMemory : ℕ → Huffman.TNode) (aBuf : List UInt8) : Except Stop (List Write) :=
  DoDeflateL litLenMemory distanceMemory aBuf .zero

/-- `TFileOutput::KBufSize`. -/
def KBufSize : ℕ+ := 0x1000

/-- `DeflateCompress`: the bytes that are written to the stream. -/
def DeflateCompress (litLenMemory distanceMemory : ℕ → Huffman.TNode) (bytes : List UInt8) :
    Except Stop (List UInt8) := do
  let writes ← DeflateL litLenMemory distanceMemory bytes
  pure (produced (.new KBufSize fun _ => KBufSize) writes 1)

end Output

end GnuPoc.Deflate
