import GnuPoc.Crtsis.Files

/-!
# GnuPoc.Crtsis.Write — writing the SIS file (`crtsis.cpp`, `instendian.h`)

Every record is put together in memory, its numbers are exchanged where the host is big-endian, and the same bytes go
to the file and into the checksum.  The checksum word is left out at first and written last.
-/

namespace GnuPoc.Crtsis

open GnuPoc.Lib

def KUidInstallAppUid1 : UInt32 := 0x1000006d
def KUidInstallAppUid1U : UInt32 := 0x10003a12
def KUidInstallAppValue : UInt32 := 0x10000419
def KInstallerVersion : UInt32 := 200

/-- `TInstInstallation`. -/
structure TInstInstallation where
  iThisUID₀ : UInt32
  iThisUID₁ : UInt32
  iThisUID₂ : UInt32
  iUidChecksum : UInt32
  iChecksum : UInt16
  iNumLanguages : UInt16
  iNumPkgLines : UInt16
  iNumDependencies : UInt16
  iLangChosen : UInt16
  iNumPkgLinesDone : UInt16
  iInstallDrive : UInt16
  iNumCapabilities : UInt16
  iInstVersion : UInt32
  iFlags : UInt16
  iType : UInt16
  iMajor : UInt16
  iMinor : UInt16
  iBuild : UInt32
  iLanguageBlock : UInt32
  iPackageLinesBlock : UInt32
  iDependenciesBlock : UInt32
  iCertificatesBlock : UInt32
  iNames : UInt32
  iSignatureBlock : UInt32
  iCapabilitiesBlock : UInt32
  iSpaceUsed : UInt32
  iMaximumSpaceNeeded : UInt32
  iSpare2 : List UInt16

namespace TInstInstallation

/-- `memset`. -/
def zero : TInstInstallation :=
  ⟨0, 0, 0, 0, 0, 0, 0, 0, 0, 0, 0, 0, 0, 0, 0, 0, 0, 0, 0, 0, 0, 0, 0, 0, 0, 0, 0, List.replicate 8 0⟩

def flipTInstUID (o : ByteOrder) (h : TInstInstallation) : TInstInstallation :=
  { h with
    iThisUID₀ := o.flip32 h.iThisUID₀
    iThisUID₁ := o.flip32 h.iThisUID₁
    iThisUID₂ := o.flip32 h.iThisUID₂ }

def flipTInstInstallation (o : ByteOrder) (h : TInstInstallation) : TInstInstallation where
  iThisUID₀ := o.flip32 h.iThisUID₀
  iThisUID₁ := o.flip32 h.iThisUID₁
  iThisUID₂ := o.flip32 h.iThisUID₂
  iUidChecksum := o.flip32 h.iUidChecksum
  iChecksum := o.flip16 h.iChecksum
  iNumLanguages := o.flip16 h.iNumLanguages
  iNumPkgLines := o.flip16 h.iNumPkgLines
  iNumDependencies := o.flip16 h.iNumDependencies
  iLangChosen := o.flip16 h.iLangChosen
  iNumPkgLinesDone := o.flip16 h.iNumPkgLinesDone
  iInstallDrive := o.flip16 h.iInstallDrive
  iNumCapabilities := o.flip16 h.iNumCapabilities
  iInstVersion := o.flip32 h.iInstVersion
  iFlags := o.flip16 h.iFlags
  iType := o.flip16 h.iType
  iMajor := o.flip16 h.iMajor
  iMinor := o.flip16 h.iMinor
  iBuild := o.flip32 h.iBuild
  iLanguageBlock := o.flip32 h.iLanguageBlock
  iPackageLinesBlock := o.flip32 h.iPackageLinesBlock
  iDependenciesBlock := o.flip32 h.iDependenciesBlock
  iCertificatesBlock := o.flip32 h.iCertificatesBlock
  iNames := o.flip32 h.iNames
  iSignatureBlock := o.flip32 h.iSignatureBlock
  iCapabilitiesBlock := o.flip32 h.iCapabilitiesBlock
  iSpaceUsed := o.flip32 h.iSpaceUsed
  iMaximumSpaceNeeded := o.flip32 h.iMaximumSpaceNeeded
  iSpare2 := h.iSpare2.map o.flip16

/-- `iThisUID` in memory. -/
def uidBytes (o : ByteOrder) (h : TInstInstallation) : Bytes :=
  o.bytes32 h.iThisUID₀ ++ o.bytes32 h.iThisUID₁ ++ o.bytes32 h.iThisUID₂

/-- The structure in memory from `iNumLanguages` on. -/
def tailBytes (o : ByteOrder) (h : TInstInstallation) : Bytes :=
  o.bytes16 h.iNumLanguages ++ o.bytes16 h.iNumPkgLines ++ o.bytes16 h.iNumDependencies ++ o.bytes16 h.iLangChosen ++
    o.bytes16 h.iNumPkgLinesDone ++ o.bytes16 h.iInstallDrive ++ o.bytes16 h.iNumCapabilities ++
    o.bytes32 h.iInstVersion ++ o.bytes16 h.iFlags ++ o.bytes16 h.iType ++ o.bytes16 h.iMajor ++ o.bytes16 h.iMinor ++
    o.bytes32 h.iBuild ++ o.bytes32 h.iLanguageBlock ++ o.bytes32 h.iPackageLinesBlock ++
    o.bytes32 h.iDependenciesBlock ++ o.bytes32 h.iCertificatesBlock ++ o.bytes32 h.iNames ++
    o.bytes32 h.iSignatureBlock ++ o.bytes32 h.iCapabilitiesBlock ++ o.bytes32 h.iSpaceUsed ++
    o.bytes32 h.iMaximumSpaceNeeded ++ h.iSpare2.flatMap o.bytes16

/-- The structure in memory. -/
def bytes (o : ByteOrder) (h : TInstInstallation) : Bytes :=
  h.uidBytes o ++ o.bytes32 h.iUidChecksum ++ o.bytes16 h.iChecksum ++ h.tailBytes o

end TInstInstallation

/-! ### The file and the checksum -/

/-- `WriteFile` to `m_hFile`. -/
def WriteFile (bytes : Bytes) : Gen Unit := Run.update fun s => { s with out := s.out ++ bytes }

/-- `CSISFileGeneratorBase::Crc`. -/
def addCrc (bytes : Bytes) : Gen Unit := Run.update fun s => { s with m_wCheck := Crc s.m_wCheck bytes }

def setCheck (v : UInt16) : Gen Unit := Run.update fun s => { s with m_wCheck := v }

/-- `UIDCheck` on the bytes from the pointer on. -/
def UIDCheck (bytes : Bytes) : Gen Unit := do
  setCheck 0
  addCrc (everyOther bytes)

def currString : Gen UInt32 := Run.read State.m_dwCurrString

def currCode : Gen UInt32 := Run.read State.m_dwCurrCode

def addString (size : UInt32) : Gen Unit := Run.update fun s => { s with m_dwCurrString := s.m_dwCurrString + size }

def addCode (size : UInt32) : Gen Unit := Run.update fun s => { s with m_dwCurrCode := s.m_dwCurrCode + size }

section
variable (env : Env) (w : SISWriter)

/-! ### `WriteHeaderL` -/

/-- `iInstallDrive!=pszDest[0]`, a short against a character. -/
def differs (iInstallDrive : UInt16) (c : UInt32) : Bool := iInstallDrive.toInt16.toInt32.toUInt32 ≠ c

/-- The drive of the destinations so far. -/
def installDrive (iInstallDrive : UInt16) (node : PkgLineNode) : UInt16 :=
  match node.file? with
  | none => iInstallDrive
  | some f =>
    match f.pszDest with
    | [] => iInstallDrive
    | c :: _ =>
      if c = 0 then iInstallDrive
      else if iInstallDrive = 0 then c.toUInt16
      else if differs iInstallDrive c then 33
      else iInstallDrive

/-- The fields behind the UIDs. -/
def fillHeader (lines : List Place) (off : Offsets) (m_dwMaximumSpaceNeeded : UInt32) (m_stubFile : Bool)
    (iiHead : TInstInstallation) : TInstInstallation :=
  let iNumPkgLines := lines.foldl (fun n _ => n + 1) (0 : UInt16)
  let iInstallDrive := lines.foldl (fun drive pNode => installDrive drive pNode.node) 0
  { iiHead with
    iInstVersion := KInstallerVersion
    iType := w.m_wType
    iFlags := w.m_wFlags
    iMajor := w.m_wMajor
    iMinor := w.m_wMinor
    iBuild := w.m_dwBuild
    iNumLanguages := w.noLanguages
    iLanguageBlock := off.m_dwOffLang
    iNumPkgLines := iNumPkgLines
    iInstallDrive := if m_stubFile then 122 else iInstallDrive
    iNumPkgLinesDone := if m_stubFile then iNumPkgLines else iiHead.iNumPkgLinesDone
    iPackageLinesBlock := off.m_dwOffPkgLines
    iNumDependencies := w.depends.foldl (fun n _ => n + 1) (0 : UInt16)
    iDependenciesBlock := off.m_dwOffDepend
    iNumCapabilities := w.capabilities.foldl (fun n _ => n + 1) (0 : UInt16)
    iCapabilitiesBlock := off.m_dwOffCapabilities
    iNames := off.m_dwOffString
    iMaximumSpaceNeeded := m_dwMaximumSpaceNeeded }

/-- `WriteHeaderL`. -/
def WriteHeaderL (lines : List Place) (off : Offsets) (m_dwMaximumSpaceNeeded : UInt32) (m_stubFile : Bool) :
    Gen Unit := do
  let o := env.order
  let iiHead := { TInstInstallation.zero with
    iThisUID₀ := w.m_dwUID
    iThisUID₁ := if w.isUnicode then KUidInstallAppUid1U else KUidInstallAppUid1
    iThisUID₂ := KUidInstallAppValue }
  let iiHead := iiHead.flipTInstUID o
  UIDCheck ((iiHead.uidBytes o).drop 1)
  let m_wCheck ← Run.read State.m_wCheck
  let dwCheck := m_wCheck.toUInt32 <<< 16
  setCheck 0
  UIDCheck (iiHead.uidBytes o)
  let m_wCheck ← Run.read State.m_wCheck
  let iiHead := { iiHead with iUidChecksum := dwCheck ||| m_wCheck.toUInt32 }
  setCheck 0
  addCrc (iiHead.uidBytes o)
  let iiHead := { iiHead with iUidChecksum := o.flip32 iiHead.iUidChecksum }
  addCrc (o.bytes32 iiHead.iUidChecksum)
  let iiHead := iiHead.flipTInstUID o
  let iiHead := { iiHead with iUidChecksum := o.flip32 iiHead.iUidChecksum }
  let iiHead := fillHeader w lines off m_dwMaximumSpaceNeeded m_stubFile iiHead
  Run.update fun s => { s with m_dwCurrString := off.m_dwOffString + 8 * w.noLanguages.toUInt32 }
  let iiHead := iiHead.flipTInstInstallation o
  WriteFile (iiHead.bytes o)
  Run.update fun s => { s with m_dwCurrCode := off.m_dwOffCode }
  addCrc (iiHead.tailBytes o)

/-! ### Languages and package lines -/

/-- A number that is exchanged, written and added to the checksum. -/
def writeFlipped (v : UInt32) : Gen Unit := do
  let v := env.order.flip32 v
  WriteFile (env.order.bytes32 v)
  addCrc (env.order.bytes32 v)

/-- `WriteLanguageL`. -/
def WriteLanguageL : Gen Unit := do
  let dwLangCount := w.noLanguages.toNat
  let pLang ← uninitialised env (2 * dwLangCount)
  if dwLangCount < w.langs.length then Run.stop .undefined
  else do
    let bytes := w.langs.flatMap (fun lang => env.order.bytes16 (env.order.flip16 lang)) ++ pLang.drop (2 * w.langs.length)
    WriteFile bytes
    addCrc bytes

/-- `ConfigureFileNode`, `flipTInstFile`, and the structure in memory. -/
def configureFileNode (f : PkgLineFile) : Gen Bytes := do
  let o := env.order
  let iSourcePtr ← currString
  addString (w.stringSize f.pszSource)
  let iDestinationPtr ← currString
  addString (w.stringSize f.pszDest)
  pure (o.bytes32 (o.flip32 f.type.code) ++ o.bytes32 (o.flip32 f.options) ++
    o.bytes32 (o.flip32 (w.stringSize f.pszSource)) ++ o.bytes32 (o.flip32 iSourcePtr) ++
    o.bytes32 (o.flip32 (w.stringSize f.pszDest)) ++ o.bytes32 (o.flip32 iDestinationPtr))

/-- The files of the nodes of a line. -/
def lineFiles (pNode : Place) : List PkgLineFile :=
  ((pNode.node :: pNode.next).take (pNode.node.languages w.noLanguages.toNat)).filterMap PkgLineNode.file?

/-- `WriteFileNodeL`. -/
def WriteFileNodeL (pNode : Place) (f : PkgLineFile) : Gen Unit := do
  let ifFile ← configureFileNode env w f
  WriteFile ifFile
  addCrc ifFile
  Run.each (fun f => writeFlipped env f.dwSize) (lineFiles w pNode)
  Run.each (fun f => do
    let cc ← currCode
    writeFlipped env cc
    addCode f.dwSize) (lineFiles w pNode)
  Run.each (fun f => writeFlipped env f.dwUncompressedSize) (lineFiles w pNode)
  let iStringPtr ← currString
  let iCount := UInt32.ofNat f.pszMimeType.length
  addString iCount
  let mimeType := env.order.bytes32 (env.order.flip32 iCount) ++ env.order.bytes32 (env.order.flip32 iStringPtr)
  WriteFile mimeType
  addCrc mimeType

/-- The strings of one option: their lengths, then their pointers. -/
def writeOption (strings : List WString) : Gen Unit := do
  Run.each (fun psz => writeFlipped env (w.stringSize psz)) strings
  Run.each (fun psz => do
    let mcs ← currString
    writeFlipped env mcs
    addString (w.stringSize psz)) strings

/-- The loop over the options; it goes on behind the last string. -/
def writeOptionsLoop : ℕ → List WString → Gen Unit
  | 0, _ => pure ()
  | i + 1, pLSNode =>
    let n := w.noLanguages.toNat
    if pLSNode.length < n then Run.stop .undefined
    else do
      writeOption env w (pLSNode.take n)
      writeOptionsLoop i (pLSNode.drop n)

/-- `WriteOptionsNodeL`. -/
def WriteOptionsNodeL (option : PkgLineOptions) : Gen Unit := do
  writeFlipped env option.dwNumOptions
  writeOptionsLoop env w option.dwNumOptions.toNat option.langStrings
  Run.each (fun _ => writeFlipped env 0xffffffff) (List.range KInstallMaxOptionsInts)

/-- The type of an expression: `flipTInstCondExpr` comes before it is set. -/
def writeExprType (expr : PkgLineCondition) : Gen Unit := do
  let iceExpr := env.order.bytes32 expr.exprType
  WriteFile iceExpr
  addCrc iceExpr

/-- `prim` as a number: its second word is not set. -/
def writePrimNumber (dwNumber : UInt32) : Gen Unit := do
  let prim ← uninitialised env 8
  let iStringPtr := UInt32.ofNat (env.order.load (prim.drop 4))
  let prim := env.order.bytes32 (env.order.flip32 dwNumber) ++ env.order.bytes32 (env.order.flip32 iStringPtr)
  WriteFile prim
  addCrc prim

/-- `prim` as a string. -/
def writePrimString (pszString : WString) : Gen Unit := do
  let iStringPtr ← currString
  addString (w.stringSize pszString)
  let prim := env.order.bytes32 (env.order.flip32 (w.stringSize pszString)) ++
    env.order.bytes32 (env.order.flip32 iStringPtr)
  WriteFile prim
  addCrc prim

/-- `WriteCondExprL`. -/
def WriteCondExprL : PkgLineCondition → Gen Unit
  | .binary op pLhs pRhs => do
    writeExprType env (.binary op pLhs pRhs)
    WriteCondExprL pLhs
    WriteCondExprL pRhs
  | .EInstCondUnaryOpNot pExpr => do
    writeExprType env (.EInstCondUnaryOpNot pExpr)
    WriteCondExprL pExpr
  | .EInstCondFuncAppCap arg₀ arg₁ => do
    writeExprType env (.EInstCondFuncAppCap arg₀ arg₁)
    WriteCondExprL arg₀
    WriteCondExprL arg₁
  | .EInstCondFuncDevCap arg => do
    writeExprType env (.EInstCondFuncDevCap arg)
    WriteCondExprL arg
  | .EInstCondFuncExists arg => do
    writeExprType env (.EInstCondFuncExists arg)
    WriteCondExprL arg
  | .EInstCondPrimTypeString pszString => do
    writeExprType env (.EInstCondPrimTypeString pszString)
    writePrimString env w pszString
  | .EInstCondPrimTypeVariable dwNumber => do
    writeExprType env (.EInstCondPrimTypeVariable dwNumber)
    writePrimNumber env dwNumber
  | .EInstCondPrimTypeNumber dwNumber => do
    writeExprType env (.EInstCondPrimTypeNumber dwNumber)
    writePrimNumber env dwNumber

/-- The size of a condition and the condition. -/
def writeCondition (cond : PkgLineCondition) : Gen Unit := do
  writeFlipped env (CalcConditionExprSize w cond).1
  WriteCondExprL env w cond

/-- A line of `WritePkgLinesL`. -/
def writePkgLine (pNode : Place) : Gen Unit := do
  writeFlipped env pNode.node.iPackageLineType
  match pNode.node with
  | .EInstPkgLineFile f => WriteFileNodeL env w pNode f
  | .EInstPkgLineLanguageFile f => WriteFileNodeL env w pNode f
  | .EInstPkgLineOption option => WriteOptionsNodeL env w option
  | .EInstPkgLineCondIf cond => writeCondition env w cond
  | .EInstPkgLineCondElseIf cond => writeCondition env w cond
  | .EInstPkgLineCondElse => pure ()
  | .EInstPkgLineCondEndIf => pure ()

/-- `WritePkgLinesL`. -/
def WritePkgLinesL (lines : List Place) : Gen Unit := Run.each (writePkgLine env w) lines

/-! ### Dependencies and capabilities -/

def writeDepend (d : DependNode) : Gen Unit := do
  let o := env.order
  let idDepend := o.bytes32 (o.flip32 d.dwUID) ++ o.bytes16 (o.flip16 d.wMajor) ++ o.bytes16 (o.flip16 d.wMinor) ++
    o.bytes32 (o.flip32 d.dwBuild)
  WriteFile idDepend
  addCrc idDepend
  Run.each (fun psz => writeFlipped env (w.stringSize psz)) d.langStrings
  Run.each (fun psz => do
    let mcs ← currString
    writeFlipped env mcs
    addString (w.stringSize psz)) d.langStrings

/-- `WriteDependL`. -/
def WriteDependL : Gen Unit := Run.each (writeDepend env w) w.depends

def writeCapability (c : CapabilityNode) : Gen Unit := do
  let o := env.order
  let idCapability := o.bytes32 (o.flip32 c.iKey) ++ o.bytes32 (o.flip32 c.iValue)
  WriteFile idCapability
  addCrc idCapability

/-- `WriteCapabilitiesL`. -/
def WriteCapabilitiesL : Gen Unit := Run.each (writeCapability env) w.capabilities

/-! ### Strings -/

/-- A character of `WriteString`: it is exchanged as a word of 16 bits, then made a `T`. -/
def charBytes (c : UInt32) : Bytes :=
  let c := env.order.flip16 c.toUInt16
  if w.isUnicode then env.order.bytes16 c else [c.toUInt8]

def WriteString (psz : WString) : Gen Unit := do
  let buf := psz.flatMap (charBytes env w)
  WriteFile buf
  addCrc buf

def WriteString8 (psz : WString) : Gen Unit := do
  let buf := psz.map UInt32.toUInt8
  WriteFile buf
  addCrc buf

/-- `WriteCondExprStrL`. -/
def WriteCondExprStrL : PkgLineCondition → Gen Unit
  | .binary _ pLhs pRhs => do
    WriteCondExprStrL pLhs
    WriteCondExprStrL pRhs
  | .EInstCondUnaryOpNot pExpr => WriteCondExprStrL pExpr
  | .EInstCondFuncAppCap arg₀ arg₁ => do
    WriteCondExprStrL arg₀
    WriteCondExprStrL arg₁
  | .EInstCondFuncDevCap arg => WriteCondExprStrL arg
  | .EInstCondFuncExists arg => WriteCondExprStrL arg
  | .EInstCondPrimTypeString pszString => WriteString env w pszString
  | .EInstCondPrimTypeVariable _ => pure ()
  | .EInstCondPrimTypeNumber _ => pure ()

/-- The strings of a line.  The MIME type is that of the node to which the loop over the languages has come. -/
def writeLineStrings (pNode : Place) : Gen Unit :=
  match pNode.node with
  | .EInstPkgLineFile f => do
    WriteString env w f.pszSource
    WriteString env w f.pszDest
    WriteString8 f.pszMimeType
  | .EInstPkgLineLanguageFile f => do
    WriteString env w f.pszSource
    WriteString env w f.pszDest
    WriteString8 (((lineFiles w pNode).getLast?.getD f).pszMimeType)
  | .EInstPkgLineOption option => Run.each (WriteString env w) option.langStrings
  | .EInstPkgLineCondIf cond => WriteCondExprStrL env w cond
  | .EInstPkgLineCondElseIf cond => WriteCondExprStrL env w cond
  | .EInstPkgLineCondElse => pure ()
  | .EInstPkgLineCondEndIf => pure ()

/-- `pdwLength` and `pdwPos`: what is set of them. -/
def namePositions : List WString → Gen (List (UInt32 × UInt32))
  | [] => pure []
  | psz :: rest => do
    let pos ← currString
    addString (w.stringSize psz)
    let entries ← namePositions rest
    pure ((w.stringSize psz, pos) :: entries)

/-- An array of `dwCount` numbers whose first entries are set; `pflipi` exchanges all of them. -/
def flippedArray (values : List UInt32) (array : Bytes) : Bytes :=
  values.flatMap (fun v => env.order.bytes32 (env.order.flip32 v)) ++ flipRest (array.length / 4) (array.drop (4 * values.length))
where
  flipRest : ℕ → Bytes → Bytes
    | 0, bytes => bytes
    | n + 1, bytes =>
      if bytes = [] then []
      else env.order.bytes32 (env.order.flip32 (UInt32.ofNat (env.order.load (bytes.take 4)))) ++ flipRest n (bytes.drop 4)

/-- `WriteStringsL`. -/
def WriteStringsL (lines : List Place) : Gen Unit := do
  let dwCount := w.noLanguages.toNat
  let pdwLength ← uninitialised env (4 * dwCount)
  let pdwPos ← uninitialised env (4 * dwCount)
  if dwCount < w.langStrings.length then Run.stop .undefined
  else do
    let entries ← namePositions w w.langStrings
    let pdwLength := flippedArray env (entries.map Prod.fst) pdwLength
    WriteFile pdwLength
    addCrc pdwLength
    let pdwPos := flippedArray env (entries.map Prod.snd) pdwPos
    WriteFile pdwPos
    addCrc pdwPos
    Run.each (writeLineStrings env w) lines
    Run.each (fun d => Run.each (WriteString env w) d.langStrings) w.depends
    Run.each (WriteString env w) w.langStrings

/-! ### The code block and the checksum -/

/-- What a file holds while `target` is being written. -/
def contentsBeside (target file : WString) : Gen Bytes :=
  Run.read fun s => if file = target then s.out else (s.disk file).getD []

/-- A file of `WriteCodeL`; `pBuf` is written as a whole, and the source is deleted. -/
def writeCode (target : WString) (f : PkgLineFile) : Gen Unit := do
  let file ← openSource env f.pszSource
  let pBuf ← uninitialised env f.dwSize.toNat
  let bytes ← contentsBeside target file
  let bytes := bytes.take f.dwSize.toNat
  let pBuf := bytes ++ pBuf.drop bytes.length
  WriteFile pBuf
  addCrc pBuf
  wunlink env f.pszSource

/-- `WriteCodeL`. -/
def WriteCodeL (target : WString) : Gen Unit :=
  Run.each (writeCode env target) (w.pkgLines.filterMap PkgLineNode.code?)

/-- `WriteCrcL`. -/
def WriteCrcL : Gen Unit := do
  let mcrc ← Run.read State.m_wCheck
  let mcrc := env.order.flip16 mcrc
  Run.update fun s => { s with out := s.out.take 16 ++ env.order.bytes16 mcrc ++ s.out.drop 18 }

/-- The blocks that follow one another. -/
def writeBlocks (target : WString) (lines : List Place) (m_dwMaximumSpaceNeeded : UInt32) (m_stubFile : Bool) :
    Gen Unit := do
  let off := CalculateOffsets w lines
  setCheck 0
  WriteHeaderL env w lines off m_dwMaximumSpaceNeeded m_stubFile
  WriteLanguageL env w
  WritePkgLinesL env w lines
  WriteDependL env w
  WriteCapabilitiesL env w
  WriteStringsL env w lines
  if m_stubFile then pure () else WriteCodeL env w target
  WriteCrcL env

end

/-- `GenerateSISFile`: the file `pszTargetFile` is emptied first. -/
def GenerateSISFile (env : Env) (w : SISWriter) (pszTargetFile : WString) (fIsStub : Bool) : Gen Unit := do
  let target ← createNew env pszTargetFile
  Run.update fun s => { s with out := [] }
  let (w, m_dwMaximumSpaceNeeded) ← prepare env w fIsStub
  match places w.noLanguages.toNat 0 w.pkgLines with
  | none => Run.stop .undefined
  | some lines => writeBlocks env w target lines m_dwMaximumSpaceNeeded fIsStub

end GnuPoc.Crtsis
