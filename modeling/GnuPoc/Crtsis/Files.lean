import GnuPoc.Crtsis.Package
import GnuPoc.Lib.CrcTab
import GnuPoc.Lib.Run
import Mathlib.Logic.Function.Basic

/-!
# GnuPoc.Crtsis.Files — the files of a package before they are written (`utils.cpp`, `utf8.cpp`, `crtsis.cpp`)

The generator runs on a host with a byte order, on memory whose first contents are unknown, and on a disk.  What it
writes to the SIS file is kept apart from the disk, in `out`.  The text files of a Unicode package are converted and the
files are compressed into temporary files, whose names take the place of the sources.
-/

namespace GnuPoc.Crtsis

open GnuPoc.Lib

/-- Why a run ends before its end: an exception, or something for which the program has no meaning. -/
inductive Stop
  | ErrCannotOpenFile
  | ErrCannotConvertFile
  | ErrFailedCompression
  | undefined
  /-- A loop without an end. -/
  | forever
  deriving DecidableEq, Repr

/-- What the generator runs on.  `fileOf` is the file to which the system resolves a name, `tmpPath` the directory that
`TempFileName` has chosen, `deflate` what zlib makes of a file. -/
structure Env where
  order : ByteOrder
  memory : ℕ → ℕ → Bytes
  length_memory : ∀ k n, (memory k n).length = n
  fileOf : WString → WString
  tmpPath : WString
  deflate : Bytes → Option Bytes

/-- The disk, and the variables of the generator. -/
@[ext]
structure State where
  disk : WString → Option Bytes
  out : Bytes
  m_wCheck : UInt16
  m_dwCurrString : UInt32
  m_dwCurrCode : UInt32
  allocated : ℕ

abbrev Gen := Run Stop State

section
variable (env : Env)

/-! ### Memory and files -/

/-- Memory that is not initialised: a local variable, or what `new` returns. -/
def uninitialised (n : ℕ) : Gen Bytes := fun s =>
  (.ok (env.memory s.allocated n), { s with allocated := s.allocated + 1 })

/-- The file that `MakeSISOpenFile` opens: a name without a leading `./`. -/
def sisFile (pszFilename : WString) : WString :=
  match pszFilename with
  | 46 :: 47 :: p => env.fileOf p
  | p => env.fileOf p

/-- `MakeSISOpenFile` with `OPEN_EXISTING`: the file, if there is one. -/
def openExisting (pszFilename : WString) : Gen (Option WString) :=
  Run.read fun s => if (s.disk (sisFile env pszFilename)).isSome then some (sisFile env pszFilename) else none

/-- `MakeSISOpenFile` where a missing file is an error. -/
def openSource (pszFilename : WString) : Gen WString := do
  let file ← openExisting env pszFilename
  match file with
  | some file => pure file
  | none => Run.stop .ErrCannotOpenFile

def contents (file : WString) : Gen Bytes := Run.read fun s => (s.disk file).getD []

def setContents (file : WString) (bytes : Option Bytes) : Gen Unit :=
  Run.update fun s => { s with disk := Function.update s.disk file bytes }

/-- `MakeSISOpenFile` with `CREATE_NEW`, which is `creat`: a file that exists is emptied. -/
def createNew (pszFilename : WString) : Gen WString := do
  let file := sisFile env pszFilename
  setContents file (some [])
  pure file

/-- `GetFileSize`, a `DWORD`. -/
def GetFileSize (bytes : Bytes) : ℕ := bytes.length % 2 ^ 32

/-- How many of `n` bytes the system's `read` and `write` transfer at once. -/
def transferred (n : ℕ) : ℕ := min n 0x7ffff000

/-- The buffer behind `ReadFile`, which is content with what it gets. -/
def ReadFile (bytes buffer : Bytes) (bytesToRead : ℕ) : Bytes :=
  bytes.take (transferred bytesToRead) ++ buffer.drop (bytes.take (transferred bytesToRead)).length

/-- What `WriteFile` writes of a buffer; it does not look at how much that is. -/
def writtenBytes (buffer : Bytes) (bytesToWrite : ℕ) : Bytes := buffer.take (transferred bytesToWrite)

/-- `_wunlink`. -/
def wunlink (name : WString) : Gen Unit := setContents (env.fileOf name) none

/-! ### Temporary names -/

/-- `%d`. -/
def decimal (i : ℕ) : WString := (Nat.toDigits 10 i).map fun c => UInt32.ofNat c.toNat

/-- What stands behind the last slash or backslash; one at the front counts as none. -/
def baseName (fileName : WString) : WString :=
  let index := (fileName.findIdxs fun c => c = 47 ∨ c = 92).getLast?.getD 0
  if 0 < index then fileName.drop (index + 1) else fileName

/-- The names that are tried: without a number, then with `0` to `9998`; `9999` is not tried any more. -/
def tempName (fileName : WString) : ℕ → WString
  | 0 => env.tmpPath ++ [92] ++ baseName fileName
  | i + 1 => env.tmpPath ++ [92] ++ baseName fileName ++ decimal i

/-- The first of the `n` names from `i` on that cannot be opened, or the one behind them. -/
def findTemp (fileName : WString) : ℕ → ℕ → Gen WString
  | 0, i => pure (tempName env fileName i)
  | n + 1, i => do
    let file ← openExisting env (tempName env fileName i)
    if file.isSome then findTemp fileName n (i + 1) else pure (tempName env fileName i)

/-- `TempFileName`. -/
def TempFileName (fileName : WString) : Gen WString := do
  let tmpFileName ← findTemp env fileName 10000 0
  pure (tmpFileName.map fun c => if c = 47 then 92 else c)

/-! ### Text files -/

/-- `FileIsUnicode`: whether the file is, and `littleEndian`. -/
def FileIsUnicode (fileName : WString) : Gen (Bool × Bool) := do
  let file ← openSource env fileName
  let bytes ← contents file
  let pBuf := bytes.take 4
  if pBuf.length = 4 ∧ env.order.load pBuf = 0xfeff then pure (true, true)
  else if pBuf.length = 4 ∧ env.order.load pBuf = 0xfffe then pure (true, false)
  else pure (false, false)

/-- A character with its lower two bytes exchanged, and without the others. -/
def exchange (word : ℕ) : UInt32 := UInt32.ofNat (word / 256 % 256 + word % 256 * 256)

/-- The loop over the whole words of a buffer. -/
def exchangeWords : ℕ → Bytes → Bytes
  | 0, buf => buf
  | n + 1, buf => env.order.bytes32 (exchange (env.order.load (buf.take 4))) ++ exchangeWords n (buf.drop 4)

/-- `ConvertFileToLittleEndianUnicode`. -/
def ConvertFileToLittleEndianUnicode (fileName : WString) : Gen WString := do
  let file ← openSource env fileName
  let bytes ← contents file
  let fileSize := GetFileSize bytes
  let pBuf ← uninitialised env (4 * (fileSize / 2))
  if pBuf.length < fileSize then Run.stop .undefined
  else do
    let pBuf := exchangeWords env (fileSize / 2) (ReadFile bytes pBuf fileSize)
    let pszTempSource ← TempFileName env fileName
    let temp ← createNew env pszTempSource
    setContents temp (some (writtenBytes pBuf fileSize))
    pure pszTempSource

def trailingBytesForUTF8 (source : UInt8) : ℕ :=
  if source < 0xc0 then 0
  else if source < 0xe0 then 1
  else if source < 0xf0 then 2
  else if source < 0xf8 then 3
  else if source < 0xfc then 4
  else 5

/-- `isLegalUTF8` of a sequence of at least one byte. -/
def isLegalUTF8 (source : UInt8) (trailing : Bytes) : Bool :=
  let inner (a : UInt8) : Bool :=
    if source = 0xe0 then 0xa0 ≤ a
    else if source = 0xf0 then 0x90 ≤ a
    else if source = 0xf4 then a ≤ 0x8f
    else 0x80 ≤ a
  let first : Bool := ¬ (0x80 ≤ source ∧ source < 0xc2) ∧ source ≤ 0xf4
  let continues (a : UInt8) : Bool := 0x80 ≤ a ∧ a ≤ 0xbf
  match trailing with
  | [] => first
  | [a] => a ≤ 0xbf ∧ inner a ∧ first
  | [a, b] => continues b ∧ a ≤ 0xbf ∧ inner a ∧ first
  | [a, b, c] => continues c ∧ continues b ∧ a ≤ 0xbf ∧ inner a ∧ first
  | _ => false

/-- The character of a legal sequence. -/
def decodeUTF8 (source : UInt8) : Bytes → ℕ
  | [] => source.toNat
  | [a] => source.toNat * 64 + a.toNat - 0x3080
  | [a, b] => (source.toNat * 64 + a.toNat) * 64 + b.toNat - 0xe2080
  | [a, b, c] => ((source.toNat * 64 + a.toNat) * 64 + b.toNat) * 64 + c.toNat - 0x3c82080
  | _ => 0

/-- The units of a character, converted leniently. -/
def unitsUTF16 (ch : ℕ) : List UInt16 :=
  if ch ≤ 0xffff then
    if (0xd800 ≤ ch ∧ ch ≤ 0xdfff) ∨ ch = 0xfffe ∨ ch = 0xffff then [0xfffd] else [UInt16.ofNat ch]
  else if 0x10ffff < ch then [0xfffd]
  else [UInt16.ofNat ((ch - 0x10000) / 1024 + 0xd800), UInt16.ofNat ((ch - 0x10000) % 1024 + 0xdc00)]

/-- How `ConvertUTF8toUTF16` ends; the target is large enough. -/
inductive Conversion
  | conversionOK (units : List UInt16)
  | sourceExhausted
  | sourceIllegal
  deriving DecidableEq

/-- `ConvertUTF8toUTF16`. -/
def ConvertUTF8toUTF16 : ℕ → Bytes → Conversion
  | _, [] => .conversionOK []
  | 0, _ => .sourceExhausted
  | fuel + 1, b :: source =>
    let extraBytesToRead := trailingBytesForUTF8 b
    if source.length < extraBytesToRead then .sourceExhausted
    else if isLegalUTF8 b (source.take extraBytesToRead) then
      match ConvertUTF8toUTF16 fuel (source.drop extraBytesToRead) with
      | .conversionOK units => .conversionOK (unitsUTF16 (decodeUTF8 b (source.take extraBytesToRead)) ++ units)
      | result => result
    else .sourceIllegal

/-- `ConvertFileToUnicode`.  The buffer is written as a whole, as far as its size is a `DWORD`, whatever the text fills of
it; at an illegal sequence the loop stays where it is. -/
def ConvertFileToUnicode (fileName : WString) : Gen WString := do
  let file ← openSource env fileName
  let bytes ← contents file
  let fileSize := GetFileSize bytes
  let pNarrowBuf ← uninitialised env fileSize
  let pNarrowBuf := ReadFile bytes pNarrowBuf fileSize
  let pszTempSource ← TempFileName env fileName
  let temp ← createNew env pszTempSource
  let pBufU ← uninitialised env (4 * fileSize)
  match ConvertUTF8toUTF16 fileSize pNarrowBuf with
  | .conversionOK units => do
    let text := units.flatMap env.order.bytes16
    setContents temp (some (writtenBytes (text ++ pBufU.drop text.length) (4 * fileSize % 2 ^ 32)))
    pure pszTempSource
  | .sourceExhausted => Run.stop .ErrCannotConvertFile
  | .sourceIllegal => Run.stop .forever

/-- What `CheckUnicodeTextFiles` does with a text file; `converted` stays set. -/
def checkTextFile (converted : Bool) (f : PkgLineFile) : Gen (Bool × PkgLineFile) := do
  let (isUnicode, littleEndian) ← FileIsUnicode env f.pszSource
  let (converted, f) ← (
    if ¬ isUnicode then do
      let pszTempSource ← ConvertFileToUnicode env f.pszSource
      pure (true, { f with pszSource := pszTempSource })
    else if ¬ littleEndian then do
      let pszTempSource ← ConvertFileToLittleEndianUnicode env f.pszSource
      pure (true, { f with pszSource := pszTempSource })
    else pure (converted, f))
  let file ← openSource env f.pszSource
  let bytes ← contents file
  pure (converted, if converted then { f with dwSize := UInt32.ofNat bytes.length } else f)

/-- `CheckUnicodeTextFiles`: the nodes with the names and sizes of the converted files.  The loop comes to every
node of a file. -/
def CheckUnicodeTextFiles : Bool → List PkgLineNode → Gen (List PkgLineNode)
  | _, [] => pure []
  | converted, node :: nodes =>
    match node.file? with
    | none => do
      let nodes ← CheckUnicodeTextFiles converted nodes
      pure (node :: nodes)
    | some f =>
      if f.type = .EInstFileTypeText then do
        let (converted, f) ← checkTextFile env converted f
        let nodes ← CheckUnicodeTextFiles converted nodes
        pure (node.withFile f :: nodes)
      else do
        let nodes ← CheckUnicodeTextFiles converted nodes
        pure (node :: nodes)

/-! ### The size of the installation -/

/-- `CalculateInstallSizeOfFileL`; an embedded SIS file says in its header what it needs. -/
def CalculateInstallSizeOfFileL (node : PkgLineNode) : Gen UInt32 :=
  match node.file? with
  | none => pure 0
  | some f =>
    match f.type with
    | .EInstFileTypeText | .EInstFileTypeNull | .EInstFileTypeMime => pure 0
    | .EInstFileTypeComponent => do
      let file ← openSource env f.pszSource
      let bytes ← contents file
      let header ← uninitialised env 100
      let header := bytes.take 100 ++ header.drop (bytes.take 100).length
      pure (UInt32.ofNat (env.order.load ((header.drop 80).take 4)))
    | _ => pure f.dwSize

/-- `needsOfBlock>spaceNeeded`, both an `int`. -/
def intMax (spaceNeeded needsOfBlock : UInt32) : UInt32 :=
  if spaceNeeded.toInt32 < needsOfBlock.toInt32 then needsOfBlock else spaceNeeded

mutual

/-- The lines of one branch: what they need, and the nodes from the one that ends the branch. -/
def branchSize : ℕ → UInt32 → List PkgLineNode → Gen (UInt32 × List PkgLineNode)
  | 0, _, _ => Run.stop .undefined
  | _, _, [] => Run.stop .undefined
  | fuel + 1, needsOfBlock, node :: nodes =>
    match node with
    | .EInstPkgLineCondElseIf _ | .EInstPkgLineCondElse | .EInstPkgLineCondEndIf => pure (needsOfBlock, node :: nodes)
    | .EInstPkgLineCondIf _ => do
      let (size, nodes) ← ifBlockSize fuel 0 nodes
      branchSize fuel (needsOfBlock + size) nodes
    | _ => do
      let size ← CalculateInstallSizeOfFileL env node
      branchSize fuel (needsOfBlock + size) nodes

/-- `CalculateInstallSizeOfIfBlockL`, behind the line that begins the block or a branch of it: the largest branch. -/
def ifBlockSize : ℕ → UInt32 → List PkgLineNode → Gen (UInt32 × List PkgLineNode)
  | 0, _, _ => Run.stop .undefined
  | fuel + 1, spaceNeeded, nodes => do
    let (needsOfBlock, nodes) ← branchSize fuel 0 nodes
    let spaceNeeded := intMax spaceNeeded needsOfBlock
    match nodes with
    | [] => Run.stop .undefined
    | .EInstPkgLineCondEndIf :: nodes => pure (spaceNeeded, nodes)
    | _ :: nodes => ifBlockSize fuel spaceNeeded nodes

end

/-- The loop of `EstimateInstallationSizeL`, on the nodes in the order of the package file. -/
def estimateLoop : ℕ → UInt32 → List PkgLineNode → Gen UInt32
  | _, m_dwMaximumSpaceNeeded, [] => pure m_dwMaximumSpaceNeeded
  | 0, _, _ => Run.stop .undefined
  | fuel + 1, m_dwMaximumSpaceNeeded, .EInstPkgLineCondIf _ :: nodes => do
    let (size, nodes) ← ifBlockSize env (2 * nodes.length + 2) 0 nodes
    estimateLoop fuel (m_dwMaximumSpaceNeeded + size) nodes
  | fuel + 1, m_dwMaximumSpaceNeeded, node :: nodes => do
    let size ← CalculateInstallSizeOfFileL env node
    estimateLoop fuel (m_dwMaximumSpaceNeeded + size) nodes

/-- `EstimateInstallationSizeL`. -/
def EstimateInstallationSizeL (w : SISWriter) : Gen UInt32 :=
  estimateLoop env w.pkgLines.length 0 w.pkgLines.reverse

/-! ### Compression -/

/-- `CompressFile`: the size of the compressed file. -/
def CompressFile (f : PkgLineFile) (pszOutputFname : WString) : Gen UInt32 := do
  let source ← openSource env f.pszSource
  let output ← createNew env pszOutputFname
  let bytes ← contents source
  match env.deflate bytes with
  | some compressed => do
    setContents output (some compressed)
    pure (UInt32.ofNat compressed.length)
  | none => do
    wunlink env pszOutputFname
    Run.stop .ErrFailedCompression

/-- `CompressFiles`. -/
def CompressFiles (w : SISWriter) : List PkgLineNode → Gen (List PkgLineNode)
  | [] => pure []
  | node :: nodes =>
    match node.code? with
    | none => do
      let nodes ← CompressFiles w nodes
      pure (node :: nodes)
    | some f => do
      let f := { f with dwUncompressedSize := f.dwSize }
      let f ← (
        if w.m_wFlags &&& EInstNoCompress = 0 then do
          let pszCompressedFileName ← TempFileName env f.pszSource
          let compressedSize ← CompressFile env f pszCompressedFileName
          pure { f with pszSource := pszCompressedFileName, dwSize := compressedSize }
        else pure f)
      let nodes ← CompressFiles w nodes
      pure (node.withFile f :: nodes)

/-- The text files, the size of the installation, and the compressed files. -/
def prepare (w : SISWriter) (m_stubFile : Bool) : Gen (SISWriter × UInt32) := do
  let w ← (
    if w.sizeOfChar ≠ 1 ∧ ¬ m_stubFile then do
      let pkgLines ← CheckUnicodeTextFiles env false w.pkgLines
      pure { w with pkgLines := pkgLines }
    else pure w)
  let m_dwMaximumSpaceNeeded ← EstimateInstallationSizeL env w
  let pkgLines ← CompressFiles env w w.pkgLines
  pure ({ w with pkgLines := pkgLines }, m_dwMaximumSpaceNeeded)

end

end GnuPoc.Crtsis
