import GnuPoc.Lib.LittleEndian

/-!
# GnuPoc.Crtsis.Package — what the parser hands to the generator (`parsepkg.h`, `crtsis.cpp`)

The lists of `CSISWriter`, in the order in which they are linked: every node is added in front.  The nodes of a
language file stand one behind the other, one for each language; a loop over the package lines comes to the first of
them and passes over the others.  Sizes and offsets are `DWORD`s.
-/

namespace GnuPoc.Crtsis

open GnuPoc.Lib

/-- A string of `WCHAR`s, up to its terminator. -/
abbrev WString := List UInt32

/-- The types that a package line can have. -/
inductive TInstFileType
  | EInstFileTypeSimple | EInstFileTypeText | EInstFileTypeComponent | EInstFileTypeRun | EInstFileTypeNull
  | EInstFileTypeMime
  deriving DecidableEq, Repr

def TInstFileType.code : TInstFileType → UInt32
  | .EInstFileTypeSimple => 0
  | .EInstFileTypeText => 1
  | .EInstFileTypeComponent => 2
  | .EInstFileTypeRun => 3
  | .EInstFileTypeNull => 4
  | .EInstFileTypeMime => 5

/-- `PKGLINEFILE`; `options` is the union read as a number. -/
structure PkgLineFile where
  type : TInstFileType
  options : UInt32
  pszSource : WString
  pszDest : WString
  pszMimeType : WString
  dwSize : UInt32
  dwUncompressedSize : UInt32
  deriving DecidableEq

inductive BinaryOp
  | EInstCondBinOpEq | EInstCondBinOpNe | EInstCondBinOpGt | EInstCondBinOpLt | EInstCondBinOpGe | EInstCondBinOpLe
  | EInstCondLogOpAnd | EInstCondLogOpOr
  deriving DecidableEq, Repr

def BinaryOp.code : BinaryOp → UInt32
  | .EInstCondBinOpEq => 0
  | .EInstCondBinOpNe => 1
  | .EInstCondBinOpGt => 2
  | .EInstCondBinOpLt => 3
  | .EInstCondBinOpGe => 4
  | .EInstCondBinOpLe => 5
  | .EInstCondLogOpAnd => 6
  | .EInstCondLogOpOr => 7

/-- `PKGLINECONDITION`. -/
inductive PkgLineCondition
  | binary (op : BinaryOp) (pLhs pRhs : PkgLineCondition)
  | EInstCondFuncExists (arg : PkgLineCondition)
  | EInstCondFuncDevCap (arg : PkgLineCondition)
  | EInstCondFuncAppCap (arg₀ arg₁ : PkgLineCondition)
  | EInstCondUnaryOpNot (pExpr : PkgLineCondition)
  | EInstCondPrimTypeString (pszString : WString)
  | EInstCondPrimTypeVariable (dwNumber : UInt32)
  | EInstCondPrimTypeNumber (dwNumber : UInt32)
  deriving DecidableEq

def PkgLineCondition.exprType : PkgLineCondition → UInt32
  | binary op _ _ => op.code
  | EInstCondFuncExists _ => 8
  | EInstCondFuncDevCap _ => 9
  | EInstCondFuncAppCap _ _ => 10
  | EInstCondUnaryOpNot _ => 11
  | EInstCondPrimTypeString _ => 12
  | EInstCondPrimTypeVariable _ => 13
  | EInstCondPrimTypeNumber _ => 14

/-- `PKGLINEOPTIONS`; the strings of all options, one behind the other. -/
structure PkgLineOptions where
  dwNumOptions : UInt32
  langStrings : List WString
  deriving DecidableEq

/-- `PKGLINENODE`. -/
inductive PkgLineNode
  | EInstPkgLineFile (file : PkgLineFile)
  | EInstPkgLineLanguageFile (file : PkgLineFile)
  | EInstPkgLineOption (option : PkgLineOptions)
  | EInstPkgLineCondIf (cond : PkgLineCondition)
  | EInstPkgLineCondElseIf (cond : PkgLineCondition)
  | EInstPkgLineCondElse
  | EInstPkgLineCondEndIf
  deriving DecidableEq

namespace PkgLineNode

def iPackageLineType : PkgLineNode → UInt32
  | EInstPkgLineFile _ => 0
  | EInstPkgLineLanguageFile _ => 1
  | EInstPkgLineOption _ => 2
  | EInstPkgLineCondIf _ => 3
  | EInstPkgLineCondElseIf _ => 4
  | EInstPkgLineCondElse => 5
  | EInstPkgLineCondEndIf => 6

def file? : PkgLineNode → Option PkgLineFile
  | EInstPkgLineFile f => some f
  | EInstPkgLineLanguageFile f => some f
  | _ => none

/-- The node with another file. -/
def withFile (f : PkgLineFile) : PkgLineNode → PkgLineNode
  | EInstPkgLineFile _ => EInstPkgLineFile f
  | EInstPkgLineLanguageFile _ => EInstPkgLineLanguageFile f
  | node => node

/-- The file whose contents go into the code block. -/
def code? (node : PkgLineNode) : Option PkgLineFile := node.file?.filter fun f => f.type ≠ .EInstFileTypeNull

/-- The nodes that belong to a line of `n` languages. -/
def languages (n : ℕ) : PkgLineNode → ℕ
  | EInstPkgLineLanguageFile _ => n
  | _ => 1

end PkgLineNode

structure DependNode where
  dwUID : UInt32
  wMajor : UInt16
  wMinor : UInt16
  dwBuild : UInt32
  langStrings : List WString
  deriving DecidableEq

structure CapabilityNode where
  iKey : UInt32
  iValue : UInt32
  deriving DecidableEq

/-- `CSISWriter`, as far as it describes the package. -/
structure SISWriter where
  m_dwUID : UInt32
  m_wMajor : UInt16
  m_wMinor : UInt16
  m_dwBuild : UInt32
  m_wType : UInt16
  m_wFlags : UInt16
  langs : List UInt16
  langStrings : List WString
  pkgLines : List PkgLineNode
  depends : List DependNode
  capabilities : List CapabilityNode
  deriving DecidableEq

def EInstIsUnicode : UInt16 := 1

def EInstNoCompress : UInt16 := 8

namespace SISWriter

/-- `GetNoLanguages`. -/
def noLanguages (w : SISWriter) : UInt16 := UInt16.ofNat w.langs.length

def isUnicode (w : SISWriter) : Bool := w.m_wFlags &&& EInstIsUnicode ≠ 0

/-- `SizeOfChar`. -/
def sizeOfChar (w : SISWriter) : ℕ := if w.isUnicode then 2 else 1

/-- `wcslen(psz)*SizeOfChar()`. -/
def stringSize (w : SISWriter) (psz : WString) : UInt32 := UInt32.ofNat (psz.length * w.sizeOfChar)

end SISWriter

/-! ### The places of a loop over the lines -/

/-- Where `pNode` points: a node and those behind it. -/
structure Place where
  node : PkgLineNode
  next : List PkgLineNode
  deriving DecidableEq

/-- The places that `pNode` comes to after passing over `k` nodes.  A loop that is led past the last node goes on from
a null pointer. -/
def places (n : ℕ) : ℕ → List PkgLineNode → Option (List Place)
  | 0, [] => some []
  | _ + 1, [] => none
  | 0, node :: next => (places n (node.languages n - 1) next).map (⟨node, next⟩ :: ·)
  | k + 1, _ :: next => places n k next

/-! ### `CalculateOffsets` -/

def sizeofTInstInstallation : UInt32 := 100
def sizeofTInstFile : UInt32 := 24
def sizeofTInstString : UInt32 := 8
def sizeofTInstDependency : UInt32 := 12
def KInstallMaxOptionsInts : ℕ := 4

section
variable (w : SISWriter)

/-- The size, and what is added to `stringSizes`. -/
def CalcConditionExprSize : PkgLineCondition → UInt32 × UInt32
  | .binary _ pLhs pRhs =>
    let lhs := CalcConditionExprSize pLhs
    let rhs := CalcConditionExprSize pRhs
    (4 + (lhs.1 + rhs.1), lhs.2 + rhs.2)
  | .EInstCondUnaryOpNot pExpr =>
    let expr := CalcConditionExprSize pExpr
    (4 + expr.1, expr.2)
  | .EInstCondFuncAppCap arg₀ arg₁ =>
    let arg₀ := CalcConditionExprSize arg₀
    let arg₁ := CalcConditionExprSize arg₁
    (4 + arg₀.1 + arg₁.1, arg₀.2 + arg₁.2)
  | .EInstCondFuncDevCap arg =>
    let arg := CalcConditionExprSize arg
    (4 + arg.1, arg.2)
  | .EInstCondFuncExists arg =>
    let arg := CalcConditionExprSize arg
    (4 + arg.1, arg.2)
  | .EInstCondPrimTypeString pszString => (4 + 8, w.stringSize pszString)
  | .EInstCondPrimTypeVariable _ => (4 + 8, 0)
  | .EInstCondPrimTypeNumber _ => (4 + 8, 0)

/-- The size of a line behind its type, and of its strings. -/
def lineSizes : PkgLineNode → UInt32 × UInt32
  | .EInstPkgLineFile f => fileSizes 1 f
  | .EInstPkgLineLanguageFile f => fileSizes w.noLanguages f
  | .EInstPkgLineOption o =>
    (4 + (o.langStrings.foldl (fun size _ => size + 8) 0) + 4 * UInt32.ofNat KInstallMaxOptionsInts,
      o.langStrings.foldl (fun size psz => size + w.stringSize psz) 0)
  | .EInstPkgLineCondIf cond => condSizes cond
  | .EInstPkgLineCondElseIf cond => condSizes cond
  | .EInstPkgLineCondElse => (0, 0)
  | .EInstPkgLineCondEndIf => (0, 0)
where
  fileSizes (wNumLangs : UInt16) (f : PkgLineFile) : UInt32 × UInt32 :=
    (sizeofTInstFile + 12 * wNumLangs.toUInt32 + sizeofTInstString,
      w.stringSize f.pszSource + w.stringSize f.pszDest + UInt32.ofNat f.pszMimeType.length)
  condSizes (cond : PkgLineCondition) : UInt32 × UInt32 :=
    (4 + (CalcConditionExprSize w cond).1, (CalcConditionExprSize w cond).2)

end

/-- The offsets of the blocks that `CalculateOffsets` leaves in the generator. -/
structure Offsets where
  m_dwOffLang : UInt32
  m_dwOffPkgLines : UInt32
  m_dwOffDepend : UInt32
  m_dwOffCertificates : UInt32
  m_dwOffCapabilities : UInt32
  m_dwOffString : UInt32
  m_dwOffCode : UInt32
  m_dwOffSignature : UInt32
  deriving DecidableEq, Repr

/-- `CalculateOffsets`, with the places of its loop over the lines; without a signature. -/
def CalculateOffsets (w : SISWriter) (lines : List Place) : Offsets :=
  let m_dwOffLang := sizeofTInstInstallation
  let m_dwOffPkgLines := m_dwOffLang + 2 * w.noLanguages.toUInt32
  let sizes := lines.foldl (fun (sizes : UInt32 × UInt32) pNode =>
    (sizes.1 + 4 + (lineSizes w pNode.node).1, sizes.2 + (lineSizes w pNode.node).2)) (m_dwOffPkgLines, 0)
  let m_dwOffDepend := sizes.1
  let stringSizes := sizes.2
  let m_dwOffCertificates := w.depends.foldl
    (fun off _ => off + (sizeofTInstDependency + 8 * w.noLanguages.toUInt32)) m_dwOffDepend
  let m_dwOffCapabilities := m_dwOffCertificates
  let m_dwOffString := w.capabilities.foldl (fun off _ => off + 8) m_dwOffCapabilities
  let m_dwOffCode := m_dwOffString + 8 * w.noLanguages.toUInt32
  let m_dwOffCode := w.langStrings.foldl (fun off psz => off + w.stringSize psz) m_dwOffCode
  let m_dwOffCode := m_dwOffCode + stringSizes
  let m_dwOffCode := w.depends.foldl
    (fun off d => d.langStrings.foldl (fun off psz => off + w.stringSize psz) off) m_dwOffCode
  let m_dwOffSignature := w.pkgLines.foldl (fun off node =>
    match node.code? with
    | some f => off + f.dwSize
    | none => off) m_dwOffCode
  ⟨m_dwOffLang, m_dwOffPkgLines, m_dwOffDepend, m_dwOffCertificates, m_dwOffCapabilities, m_dwOffString,
    m_dwOffCode, m_dwOffSignature⟩

end GnuPoc.Crtsis
